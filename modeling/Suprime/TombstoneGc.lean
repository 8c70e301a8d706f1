import Suprime.StoreVersions

namespace Suprime
set_option autoImplicit true

/-- A value with its history: whether it was written after a given state. -/
structure Dated (α : Type u) where
  value : α
  late : Bool
  deriving DecidableEq

instance [PyNone α] : PyNone (Dated α) := ⟨⟨pyNone, true⟩⟩

/-- Stores of any number of replicas and the messages with entries that are in flight. -/
structure GcSwarm (ν κ : Type) (α : Type u) where
  store : ν → DistributedStore ℚ ν κ α
  inFlight : List (Digest ℚ ν κ α)

/-- Local writes, messages with the entries of some keys (gossip takes all of them), deliveries of
the `i`-th message or of one entry of it, losses, direct merges from another replica, and garbage
collection. A message stays in flight until it is lost. -/
inductive GcAction (ν κ : Type) (α : Type u)
  | set (n : ν) (key : κ) (value : α) (clock : ℚ)
  | delete (n : ν) (key : κ) (clock : ℚ)
  | send (n : ν) (keys : κ → Bool)
  | deliver (n : ν) (i : ℕ)
  | deliverEntry (n : ν) (i : ℕ) (key : κ)
  | lose (i : ℕ)
  | merge (n m : ν)
  | collectGarbage (n : ν) (minAge clock : ℚ)

/-- The action with a value that is marked as written after the state. -/
def GcAction.dated : GcAction ν κ α → GcAction ν κ (Dated α)
  | .set n key value clock => .set n key ⟨value, true⟩ clock
  | .delete n key clock => .delete n key clock
  | .send n keys => .send n keys
  | .deliver n i => .deliver n i
  | .deliverEntry n i key => .deliverEntry n i key
  | .lose i => .lose i
  | .merge n m => .merge n m
  | .collectGarbage n minAge clock => .collectGarbage n minAge clock

variable {ν κ : Type} {α : Type u} [LinearOrder ν] [DecidableEq κ] [PyNone α]

namespace GcSwarm

/-- Replica `n` goes on with a store. -/
def update (s : GcSwarm ν κ α) (n : ν) (st : DistributedStore ℚ ν κ α) : GcSwarm ν κ α :=
  { s with store := Function.update s.store n st }

def step (s : GcSwarm ν κ α) : GcAction ν κ α → Option (GcSwarm ν κ α)
  | .set n key value clock => some (s.update n ((s.store n).set key value clock).store)
  | .delete n key clock => some (s.update n ((s.store n).delete key clock).store)
  | .send n keys => some { s with inFlight := s.inFlight ++ [(s.store n).digest.filter keys] }
  | .deliver n i => do
    let d ← s.inFlight[i]?
    some (s.update n ((s.store n).applyDigest d).store)
  | .deliverEntry n i key => do
    let d ← s.inFlight[i]?
    let x ← d.get key
    some (s.update n ((s.store n).mergeEntry key (Entry.fromDict x)).store)
  | .lose i => do
    let _ ← s.inFlight[i]?
    some { s with inFlight := s.inFlight.eraseIdx i }
  | .merge n m => some (s.update n ((s.store n).merge (s.store m).data.items).store)
  | .collectGarbage n minAge clock =>
    some (s.update n ((s.store n).collectGarbage minAge clock).1)

/-- Every entry for `key`, held or in flight, meets a condition. -/
def Every (s : GcSwarm ν κ α) (key : κ) (P : Entry ℚ ν α → Prop) : Prop :=
  (∀ n e, (s.store n).data.get key = some e → P e) ∧
    ∀ d ∈ s.inFlight, ∀ x, d.get key = some x → P (Entry.fromDict x)

theorem Every.update {s : GcSwarm ν κ α} {P : Entry ℚ ν α → Prop} (h : s.Every key P) (n : ν)
    {st : DistributedStore ℚ ν κ α} (hst : ∀ e, st.data.get key = some e → P e) :
    (s.update n st).Every key P := by
  refine ⟨?_, h.2⟩
  intro m e he
  simp only [GcSwarm.update] at he
  by_cases hm : m = n
  · rw [hm, Function.update_self] at he
    exact hst e he
  · rw [Function.update_of_ne hm] at he
    exact h.1 m e he

theorem Every.putLocal {s : GcSwarm ν κ α} {P : Entry ℚ ν α → Prop} (h : s.Every key P) (n : ν)
    (k : κ) {e : Entry ℚ ν α} (he : P e) : (s.update n ((s.store n).putLocal k e)).Every key P := by
  apply h.update
  intro x hx
  rw [DistributedStore.get_putLocal] at hx
  by_cases hk : key = k
  · rw [if_pos hk] at hx
    cases hx
    exact he
  · rw [if_neg hk] at hx
    exact h.1 n x hx

theorem Every.merge {s : GcSwarm ν κ α} {P : Entry ℚ ν α → Prop} (h : s.Every key P) (n : ν)
    {l : List (κ × Entry ℚ ν α)} (hl : ∀ e, (key, e) ∈ l → P e) :
    (s.update n ((s.store n).merge l).store).Every key P := by
  apply h.update
  intro e he
  cases DistributedStore.get_merge_mem he with
  | inl he => exact h.1 n e he
  | inr he => exact hl e he

theorem get_of_foldl_erase {d : Dict κ β} {ks : List κ} {v : β}
    (h : (ks.foldl Dict.erase d).get k = some v) : d.get k = some v := by
  rw [Dict.get_foldl_erase] at h
  split at h
  · cases h
  · exact h

section
omit [LinearOrder ν] [PyNone α]

theorem get_of_collectGarbage {s : DistributedStore ℚ ν κ α}
    (h : (s.collectGarbage minAge clock).1.data.get k = some e) : s.data.get k = some e :=
  get_of_foldl_erase h

end

/-- What a step does to the entries for a key when the writes of the step meet the condition. -/
theorem Every.step {s s' : GcSwarm ν κ α} {a : GcAction ν κ α} {P : Entry ℚ ν α → Prop}
    (h : s.Every key P) (hwrite : ∀ n k v c version, a = .set n k v c → P ⟨v, version, false⟩)
    (hdelete : ∀ version, P ⟨pyNone, version, true⟩) (hs : s.step a = some s') :
    s'.Every key P := by
  cases a with
  | set n k v c =>
    cases hs
    exact h.putLocal n k (hwrite n k v c _ rfl)
  | delete n k c =>
    cases hs
    cases hk : (s.store n).data.get k with
    | none =>
      rw [DistributedStore.delete_of_none hk]
      exact h.update n (h.1 n)
    | some x =>
      rw [DistributedStore.delete_of_some hk]
      exact h.putLocal n k (hdelete _)
  | send n keys =>
    cases hs
    refine ⟨h.1, ?_⟩
    intro d hd x hx
    cases List.mem_append.1 hd with
    | inl hd => exact h.2 d hd x hx
    | inr hd =>
      rw [List.mem_singleton.1 hd, Dict.get_filter] at hx
      split at hx
      · obtain ⟨p, hp, hpx⟩ := List.mem_map.1 (Dict.mem_items.2 hx)
        cases hpx
        rw [Entry.fromDict_toDict]
        exact h.1 n p.2 (Dict.mem_items.1 hp)
      · cases hx
  | deliver n i =>
    obtain ⟨d, hd, hs⟩ := Option.bind_eq_some_iff.1 hs
    cases hs
    apply h.merge
    intro e he
    obtain ⟨p, hp, hpe⟩ := List.mem_map.1 he
    cases hpe
    exact h.2 d (List.mem_of_getElem? hd) p.2 (Dict.mem_items.1 hp)
  | deliverEntry n i k =>
    obtain ⟨d, hd, hs⟩ := Option.bind_eq_some_iff.1 hs
    obtain ⟨x, hx, hs⟩ := Option.bind_eq_some_iff.1 hs
    cases hs
    apply h.merge (l := [(k, Entry.fromDict x)])
    intro e he
    cases List.mem_singleton.1 he
    exact h.2 d (List.mem_of_getElem? hd) x hx
  | lose i =>
    obtain ⟨d, hd, hs⟩ := Option.bind_eq_some_iff.1 hs
    cases hs
    exact ⟨h.1, fun d hd => h.2 d (List.mem_of_mem_eraseIdx hd)⟩
  | merge n m =>
    cases hs
    exact h.merge n (fun e he => h.1 m e (Dict.mem_items.1 he))
  | collectGarbage n minAge c =>
    cases hs
    exact h.update n (fun e he => h.1 n e (get_of_collectGarbage he))

/-- The step in which writes are marked as late. -/
def datedStep (s : GcSwarm ν κ (Dated α)) (a : GcAction ν κ α) :
    Option (GcSwarm ν κ (Dated α)) :=
  s.step a.dated

/-- The entry was written after the state or is not older than the tombstone. -/
def Safe (V : Version ℚ ν) (e : Entry ℚ ν (Dated α)) : Prop :=
  e.value.late = true ∨ V ≤ e.version

section
omit [LinearOrder ν]

theorem get_cases (st : DistributedStore ℚ ν κ β) (key : κ) (default : β) :
    st.get key default = default ∨
      ∃ e, st.data.get key = some e ∧ st.get key default = e.value := by
  rw [DistributedStore.get]
  cases st.data.get key with
  | none => exact .inl rfl
  | some e =>
    cases hd : e.deleted with
    | true => exact .inl (if_pos hd)
    | false => exact .inr ⟨e, rfl, if_neg (by rw [hd]; exact Bool.false_ne_true)⟩

end

theorem safe_of_run {s₀ s : GcSwarm ν κ (Dated α)} {past : List (_ × GcAction ν κ α)}
    (h : Run datedStep s₀ past s) (h₀ : s₀.Every key (fun e => V ≤ e.version)) :
    s.Every key (Safe V) := by
  apply h.invariant (I := fun s => s.Every key (Safe V)) (C := fun _ _ => True)
  · intro p hp
    exact trivial
  · exact ⟨fun n e he => .inr (h₀.1 n e he), fun d hd x hx => .inr (h₀.2 d hd x hx)⟩
  · intro s a s' hs _ ht
    apply hs.step _ _ ht
    · intro n k v c version ha
      cases a with
      | set n' k' v' c' =>
        cases ha
        exact .inl rfl
      | _ => cases ha
    · intro version
      exact .inl rfl

end GcSwarm

def Entry.undated (e : Entry ℚ ν (Dated α)) : Entry ℚ ν α := ⟨e.value.value, e.version, e.deleted⟩

def EntryData.undated (d : EntryData ℚ ν (Dated α)) : EntryData ℚ ν α :=
  ⟨d.value.map Dated.value, d.ts, d.origin, d.deleted⟩

section
omit [LinearOrder ν]

theorem Entry.undated_fromDict (d : EntryData ℚ ν (Dated α)) :
    (Entry.fromDict d).undated = Entry.fromDict d.undated := by
  obtain ⟨value, ts, origin, deleted⟩ := d
  cases value with
  | none => rfl
  | some v => rfl

end

namespace DistributedStore

/-- The store without the history of its values. -/
def undated (s : DistributedStore ℚ ν κ (Dated α)) : DistributedStore ℚ ν κ α :=
  ⟨s.nodeId, s.data.map Entry.undated, s.highestTs⟩

section
omit [LinearOrder ν] [PyNone α]

theorem undated_putLocal (s : DistributedStore ℚ ν κ (Dated α)) (key : κ)
    (e : Entry ℚ ν (Dated α)) : (s.putLocal key e).undated = s.undated.putLocal key e.undated := by
  simp only [undated, putLocal, Dict.map_set]
  rfl

end

section
omit [LinearOrder ν]

theorem undated_delete (s : DistributedStore ℚ ν κ (Dated α)) (key : κ) (clock : ℚ) :
    (s.delete key clock).store.undated = (s.undated.delete key clock).store := by
  have hget : s.undated.data.get key = (s.data.get key).map Entry.undated := Dict.get_map _ _ _
  cases hk : s.data.get key with
  | none =>
    rw [hk] at hget
    rw [delete_of_none hk, delete_of_none hget]
  | some e =>
    rw [hk] at hget
    rw [delete_of_some hk, delete_of_some hget, undated_putLocal]
    rfl

end

section
omit [PyNone α]

theorem undated_mergeEntry (s : DistributedStore ℚ ν κ (Dated α)) (key : κ)
    (e : Entry ℚ ν (Dated α)) :
    (s.mergeEntry key e).store.undated = (s.undated.mergeEntry key e.undated).store := by
  have hget : s.undated.data.get key = (s.data.get key).map Entry.undated := Dict.get_map _ _ _
  cases s.mergeEntry_cases key e with
  | inl hin =>
    obtain ⟨hlt, he⟩ := hin
    cases s.undated.mergeEntry_cases key e.undated with
    | inl hin' =>
      rw [he, hin'.2]
      simp only [undated, Dict.map_set]
      rfl
    | inr hout =>
      obtain ⟨⟨c, hc, hle⟩, _⟩ := hout
      obtain ⟨c', hc', rfl⟩ := Option.map_eq_some_iff.1 (hget.symm.trans hc)
      exact absurd (hlt c' hc') (not_lt.2 hle)
  | inr hout =>
    obtain ⟨⟨c, hc, hle⟩, he⟩ := hout
    cases s.undated.mergeEntry_cases key e.undated with
    | inl hin' =>
      rw [hc] at hget
      exact absurd (hin'.1 _ hget) (not_lt.2 hle)
    | inr hout' => rw [he, hout'.2]

theorem undated_merge (s : DistributedStore ℚ ν κ (Dated α))
    (l : List (κ × Entry ℚ ν (Dated α))) :
    (s.merge l).store.undated =
      (s.undated.merge (l.map (fun p => (p.1, p.2.undated)))).store := by
  induction l generalizing s with
  | nil => rfl
  | cons p l ih =>
    rw [merge_cons, ih, undated_mergeEntry, List.map_cons, merge_cons]

end

theorem undated_applyDigest (s : DistributedStore ℚ ν κ (Dated α))
    (d : Digest ℚ ν κ (Dated α)) :
    (s.applyDigest d).store.undated =
      (s.undated.applyDigest (d.map EntryData.undated)).store := by
  rw [applyDigest, undated_merge, applyDigest, List.map_map, Dict.map, List.map_map]
  congr 2
  apply List.map_congr_left
  intro p _
  exact Prod.ext rfl (Entry.undated_fromDict p.2)

theorem map_foldl_erase (d : Dict κ β) (f : β → γ) (ks : List κ) :
    (ks.foldl Dict.erase d).map f = ks.foldl Dict.erase (d.map f) := by
  induction ks generalizing d with
  | nil => rfl
  | cons k ks ih =>
    rw [List.foldl_cons, ih, Dict.map_erase, List.foldl_cons]

section
omit [LinearOrder ν] [PyNone α]

theorem undated_collectGarbage (s : DistributedStore ℚ ν κ (Dated α)) (minAge clock : ℚ) :
    (s.collectGarbage minAge clock).1.undated = (s.undated.collectGarbage minAge clock).1 := by
  have hstale : (s.undated.data.items.filter
      (fun p => p.2.deleted && decide (minAge ≤ clock - p.2.version.ts))).map Prod.fst =
      (s.data.items.filter
        (fun p => p.2.deleted && decide (minAge ≤ clock - p.2.version.ts))).map Prod.fst := by
    simp only [undated, Dict.map, List.filter_map, List.map_map]
    rfl
  simp only [collectGarbage, hstale]
  rw [undated, map_foldl_erase]
  rfl

end

section
omit [LinearOrder ν] [PyNone α] [DecidableEq κ]

theorem undated_digest (s : DistributedStore ℚ ν κ (Dated α)) (keys : κ → Bool) :
    (s.digest.filter keys).map EntryData.undated = s.undated.digest.filter keys := by
  simp only [digest, undated, Dict.map, Dict.filter, List.filter_map, List.map_map]
  rfl

end

end DistributedStore

namespace GcSwarm

def undated (s : GcSwarm ν κ (Dated α)) : GcSwarm ν κ α :=
  ⟨fun n => (s.store n).undated, s.inFlight.map (Dict.map EntryData.undated)⟩

section
omit [PyNone α] [DecidableEq κ]

theorem undated_update (s : GcSwarm ν κ (Dated α)) (n : ν)
    (st : DistributedStore ℚ ν κ (Dated α)) :
    (s.update n st).undated = s.undated.update n st.undated := by
  simp only [undated, update, mk.injEq, and_true]
  funext m
  by_cases hm : m = n
  · rw [hm, Function.update_self, Function.update_self]
  · rw [Function.update_of_ne hm, Function.update_of_ne hm]

end

theorem undated_step (s : GcSwarm ν κ (Dated α)) (a : GcAction ν κ α) :
    (s.datedStep a).map undated = s.undated.step a := by
  cases a with
  | set n k v c =>
    simp only [datedStep, GcAction.dated, step, Option.map_some, undated_update,
      DistributedStore.set_store, DistributedStore.undated_putLocal]
    rfl
  | delete n k c =>
    simp only [datedStep, GcAction.dated, step, Option.map_some, undated_update,
      DistributedStore.undated_delete]
    rfl
  | send n keys =>
    simp only [datedStep, GcAction.dated, step, Option.map_some, undated, List.map_append,
      List.map_cons, List.map_nil, DistributedStore.undated_digest]
  | deliver n i =>
    simp only [datedStep, GcAction.dated, step, undated, List.getElem?_map]
    cases s.inFlight[i]? with
    | none => rfl
    | some d =>
      simp only [Option.map_some, Option.bind_eq_bind, Option.bind_some]
      rw [undated_update, DistributedStore.undated_applyDigest]
      rfl
  | deliverEntry n i k =>
    simp only [datedStep, GcAction.dated, step, undated, List.getElem?_map]
    cases s.inFlight[i]? with
    | none => rfl
    | some d =>
      simp only [Option.map_some, Option.bind_eq_bind, Option.bind_some, Dict.get_map]
      cases d.get k with
      | none => rfl
      | some x =>
        simp only [Option.map_some, Option.bind_some]
        rw [undated_update, DistributedStore.undated_mergeEntry, Entry.undated_fromDict]
        rfl
  | lose i =>
    simp only [datedStep, GcAction.dated, step, undated, List.getElem?_map]
    cases s.inFlight[i]? with
    | none => rfl
    | some d =>
      simp only [Option.map_some, Option.bind_eq_bind, Option.bind_some, undated,
        List.eraseIdx_eq_take_drop_succ, List.map_append, List.map_take, List.map_drop]
  | merge n m =>
    simp only [datedStep, GcAction.dated, step, Option.map_some, undated_update,
      DistributedStore.undated_merge]
    rfl
  | collectGarbage n minAge c =>
    simp only [datedStep, GcAction.dated, step, Option.map_some, undated_update,
      DistributedStore.undated_collectGarbage]
    rfl

theorem exists_dated_run {s₀ : GcSwarm ν κ (Dated α)} {s : GcSwarm ν κ α}
    {past : List (GcSwarm ν κ α × GcAction ν κ α)} (h : Run step s₀.undated past s) :
    ∃ past' t, Run datedStep s₀ past' t ∧ t.undated = s ∧
      past'.map (fun p => (p.1.undated, p.2)) = past := by
  induction h with
  | start => exact ⟨[], s₀, .start, rfl, rfl⟩
  | next _ hs ih =>
    obtain ⟨past', t, ht, rfl, rfl⟩ := ih
    rw [← undated_step] at hs
    obtain ⟨t', ht', rfl⟩ := Option.map_eq_some_iff.1 hs
    exact ⟨_, t', ht.next ht', rfl, rfl⟩

/-- Once every entry for a key is at least as new as the tombstone, no run brings an entry back
that was written before and is older. -/
theorem collected_key_stays_gone {s₀ s : GcSwarm ν κ (Dated α)}
    {past : List (GcSwarm ν κ (Dated α) × GcAction ν κ α)} {key : κ} {V : Version ℚ ν}
    (h : Run datedStep s₀ past s) (h₀ : s₀.Every key (fun e => V ≤ e.version)) (n : ν) :
    (∀ e, (s.store n).data.get key = some e → e.value.late = false → V ≤ e.version) ∧
      ∀ default, (s.store n).get key default = default ∨
        ((s.store n).get key default).late = true ∨
        ∃ e, (s.store n).data.get key = some e ∧ (s.store n).get key default = e.value ∧
          V ≤ e.version := by
  have hsafe := safe_of_run h h₀
  refine ⟨?_, ?_⟩
  · intro e he hlate
    cases hsafe.1 n e he with
    | inl ht =>
      rw [hlate] at ht
      cases ht
    | inr hle => exact hle
  · intro default
    cases get_cases (s.store n) key default with
    | inl hd => exact .inl hd
    | inr hget =>
      obtain ⟨e, he, hval⟩ := hget
      cases hsafe.1 n e he with
      | inl ht =>
        rw [hval]
        exact .inr (.inl ht)
      | inr hle => exact .inr (.inr ⟨e, he, hval, hle⟩)

/-- The tombstone of `"k"` at every replica. -/
def deletedEverywhere : GcSwarm String String (Dated (Option ℕ)) :=
  ⟨fun n => ((DistributedStore.init n).mergeEntry "k" ⟨⟨none, false⟩, ⟨10, "a"⟩, true⟩).store, []⟩

theorem every_deletedEverywhere :
    deletedEverywhere.Every "k" (fun e => (⟨10, "a"⟩ : Version ℚ String) ≤ e.version) := by
  refine ⟨?_, fun d hd => by cases hd⟩
  intro n e he
  simp only [deletedEverywhere, DistributedStore.get_mergeEntry, if_true] at he
  cases he
  exact le_rfl

/-- Two replicas collect the tombstone. One of them writes the key again with a slow clock, and the
other one takes the new entry. -/
theorem collected_key_is_rewritten : ∃ past s, Run datedStep deletedEverywhere past s ∧
    ((s.store "a").data.get "k").map (fun e => (e.value, e.version)) =
      some (⟨some 7, true⟩, ⟨3, "b"⟩) ∧
    ((∀ e, (s.store "a").data.get "k" = some e → e.value.late = false → ⟨10, "a"⟩ ≤ e.version) ∧
      ∀ default, (s.store "a").get "k" default = default ∨
        ((s.store "a").get "k" default).late = true ∨
        ∃ e, (s.store "a").data.get "k" = some e ∧ (s.store "a").get "k" default = e.value ∧
          ⟨10, "a"⟩ ≤ e.version) := by
  obtain ⟨past, s, hr, hs⟩ := exists_run_of_exec datedStep deletedEverywhere
    [.collectGarbage "b" 5 20, .collectGarbage "a" 5 20, .set "b" "k" (some 7) 3,
      .send "b" (fun _ => true), .deliver "a" 0]
    (fun s => ((s.store "a").data.get "k").map (fun e => (e.value, e.version)))
    (some (⟨some 7, true⟩, ⟨3, "b"⟩)) (by decide +kernel)
  exact ⟨past, s, hr, hs, collected_key_stays_gone hr every_deletedEverywhere "a"⟩

end GcSwarm

end Suprime
