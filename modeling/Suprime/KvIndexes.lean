import Suprime.KvLive
import Suprime.Run

namespace Suprime
set_option autoImplicit true

/-- A database on a node that is alone. -/
structure KvAlone (ν α : Type) where
  kv : KVStore ν α
  store : NodeStore ν α

/-- A call, the time that it reads and the readings of the clock of the store. -/
structure TimedCall (α : Type) where
  op : KvOp α
  now : ℚ
  clock : ℕ → ℚ

/-- The call puts no `None`. -/
def TimedCall.PutsValues : TimedCall α → Prop
  | ⟨.put _ value _, _, _⟩ | ⟨.quorumPut _ value _, _, _⟩ => value ≠ .none
  | _ => True

variable {ν α : Type} [LinearOrder ν] [DecidableEq α]

namespace KvAlone

def init (nspace : Str) (n : ν) : KvAlone ν α := ⟨.init nspace, .init n⟩

def step (s : KvAlone ν α) (c : TimedCall α) : Option (KvAlone ν α) :=
  some ⟨s.kv.afterOp c.op,
    (s.store.applyWrites c.clock (s.kv.opWrites s.store c.now c.clock c.op)).1⟩

def table (s : KvAlone ν α) : IndexedTable Str Str Str (KvValue α) Str := s.kv.table s.store

def unexpired (s : KvAlone ν α) (now : ℚ) : Set Str :=
  {key | s.kv.isExpired s.store key now = false}

/-- An index skips the keys that have expired when it is made, each until its next write or until
the index is filled again. -/
def Skipped : List (KvAlone ν α × TimedCall α) → Str → Str → Prop
  | [], _, _ => False
  | (s, c) :: past, name, key =>
    match c.op with
    | .put key' _ _ | .quorumPut key' _ _ => key ≠ key' ∧ Skipped past name key
    | .createIndex name' _ =>
      s.table.skippedBy (Skipped past) name' (s.unexpired c.now) name key
    | _ => Skipped past name key

/-- The entry belongs to a key by an index that did not skip it. -/
def Due (past : List (KvAlone ν α × TimedCall α)) (s : KvAlone ν α) (key full : Str) : Prop :=
  s.table.Due s.kv.indexKey (Skipped past) key full

/-- The keys share no entry with the others. -/
def Apart (past : List (KvAlone ν α × TimedCall α)) (s : KvAlone ν α) (keys : Set Str) : Prop :=
  ∀ key ∈ keys, ∀ full key', s.table.EntryOf s.kv.indexKey key full → key' ∉ keys →
    ¬ s.Due past key' full

/-- What the keys and values of a call have to meet: entries that it takes away belong to no key
that stays, and an index that is made again gives what it gave before. -/
def Clear (past : List (KvAlone ν α × TimedCall α)) (s : KvAlone ν α) (c : TimedCall α) : Prop :=
  match c.op with
  | .put key value _ | .quorumPut key value _ =>
    s.kv.Orderly key (s.store.get (s.kv.k key) .none) value ∧
      ∀ full key', s.table.EntryOf s.kv.indexKey key full → key' ≠ key → s.Due past key' full →
        s.table.EntryFor s.kv.indexKey key value full
  | .delete key => s.Apart past {key}
  | .get key => s.kv.isExpired s.store key c.now = true → s.Apart past {key}
  | .sweepExpired => s.Apart past {key | key ∉ s.unexpired c.now}
  | .createIndex name f =>
    ∀ f' key v, s.kv.indexes.get name = some f' → s.store.live (s.kv.k key) = some v →
      ¬ Skipped past name key → f v = f' v

def HasIndexKey (s : KvAlone ν α) (f : KvValue α → Str) (x key : Str) : Prop :=
  ∃ v, s.store.live (s.kv.k key) = some v ∧ f v = x

/-- The sorted list of the keys that have not expired and have a value with the index key. -/
def keysWith (s : KvAlone ν α) (f : KvValue α → Str) (x : Str) (now : ℚ) : List Str :=
  (((s.store.under s.kv.ns).filter
    (fun p => f p.2 = x && !s.kv.isExpired s.store p.1 now)).map Prod.fst).insertionSort (· ≤ ·)

/-- An entry of some key reads as one with this index key for what is not such a key. -/
def Misread (past : List (KvAlone ν α × TimedCall α)) (s : KvAlone ν α) (name : Str)
    (f : KvValue α → Str) (x : Str) (now : ℚ) : Prop :=
  ∃ r ∈ s.unexpired now, ∃ key, s.Due past key (s.kv.indexKey name x r) ∧ ¬ s.HasIndexKey f x r

/-- A key with this index key has been skipped, although it has not expired now. -/
def Missed (past : List (KvAlone ν α × TimedCall α)) (s : KvAlone ν α) (name : Str)
    (f : KvValue α → Str) (x : Str) (now : ℚ) : Prop :=
  ∃ r ∈ s.unexpired now, Skipped past name r ∧ s.HasIndexKey f x r ∧
    ¬ ∃ key, s.Due past key (s.kv.indexKey name x r)

end KvAlone

namespace KVStore

variable {kv : KVStore ν α} {st : NodeStore ν α}

/-- Expiries are times. -/
def TimedExpiries (kv : KVStore ν α) (st : NodeStore ν α) : Prop :=
  ∀ key v, st.live (kv.expKey key) = some v → ∃ t, v = .time t

namespace TimedExpiries

section
omit [LinearOrder ν] [DecidableEq α]

theorem checkExpired (h : kv.TimedExpiries st) (key : Str) (now : ℚ) :
    kv.checkExpired st key now = some (kv.isExpired st key now) := by
  rw [KVStore.checkExpired, isExpired, DistributedStore.get_eq_live]
  cases hk : st.live (kv.expKey key) with
  | none => rfl
  | some v =>
    obtain ⟨t, rfl⟩ := h key v hk
    rfl

theorem checkAll (h : kv.TimedExpiries st) (now : ℚ) (l : List (Str × KvValue α)) :
    kv.checkAll st now l = some (l.map (fun p => (p, kv.isExpired st p.1 now))) := by
  rw [KVStore.checkAll]
  induction l with
  | nil => rfl
  | cons p l ih =>
    rw [List.mapM_cons, ih, h.checkExpired]
    rfl

theorem unexpired_map (kv : KVStore ν α) (st : NodeStore ν α) (now : ℚ)
    (l : List (Str × KvValue α)) :
    KVStore.unexpired (l.map (fun p => (p, kv.isExpired st p.1 now))) =
      l.filter (fun p => !kv.isExpired st p.1 now) := by
  rw [KVStore.unexpired, List.filter_map, List.map_map]
  exact List.map_id _

theorem mem_checkedScan (h : kv.TimedExpiries st) (now : ℚ) :
    ∃ l, kv.checkedScan st [] now = some l ∧ ∀ key v, (key, v) ∈ l ↔
      st.live (kv.k key) = some v ∧ kv.isExpired st key now = false := by
  rw [checkedScan, h.checkAll]
  refine ⟨_, rfl, ?_⟩
  intro key v
  rw [List.mem_insertionSort, unexpired_map, k, ← DistributedStore.mem_under_iff]
  simp only [List.isPrefixOf_nil_left, List.filter_true, List.mem_filter, Bool.not_eq_true']

end

end TimedExpiries

section
omit [LinearOrder ν] [DecidableEq α]

theorem time_of_own_write {kv : KVStore ν α} {v : KvValue α} {ttl : Option ℚ}
    (h : kv.Owns key' (kv.expKey key) ∧
      (kv.expKey key = kv.expKey key' →
        LocalWrite.set (kv.expKey key) v = .delete (kv.expKey key') ∨
          ∃ t, ttl = some t ∧
            LocalWrite.set (kv.expKey key) v = .set (kv.expKey key') (.time (now + t)))) :
    ∃ t, v = .time t := by
  obtain ⟨hown, htime⟩ := h
  rw [hown.eq_of_expKey] at htime
  cases htime rfl with
  | inl hdel => cases hdel
  | inr hset =>
    obtain ⟨t, -, hset⟩ := hset
    exact ⟨_, (LocalWrite.set.inj hset).2⟩

end

section
omit [LinearOrder ν]

theorem time_of_mem_opWrites (h : .set (kv.expKey key) v ∈ kv.opWrites st now clock op) :
    ∃ t, v = .time t := by
  cases op with
  | put key' value ttl => exact time_of_own_write (mem_put h)
  | quorumPut key' value ttl => exact time_of_own_write (mem_quorumPutWrites h)
  | delete key' => cases (mem_delete h).1
  | get key' =>
    rw [opWrites] at h
    split at h
    · cases (mem_delete h).1
    · cases h
  | sweepExpired =>
    rw [opWrites] at h
    split at h
    · cases h
    · cases (mem_deleteAll h).1
  | createIndex name f =>
    rw [opWrites] at h
    split at h
    · cases h
    · obtain ⟨p, -, hset⟩ := List.mem_map.1 h
      exact absurd (LocalWrite.set.inj hset).1.symm (kv.expKey_ne_indexKey _ _ _ _)

theorem exists_put (kv : KVStore ν α) (st : NodeStore ν α) (key : Str) (value : KvValue α)
    (ttl : Option ℚ) (now : ℚ) (clock : ℕ → ℚ) : ∃ tail,
      kv.put st key value ttl now clock = kv.reindex key (st.get (kv.k key) .none) value ++
        [.set (kv.k key) value] ++ tail ∧ ∀ w ∈ tail, w.key = kv.expKey key := by
  refine ⟨_, rfl, ?_⟩
  intro w hw
  cases ttl with
  | some t =>
    rw [List.mem_singleton.1 hw]
    rfl
  | none =>
    simp only at hw
    split at hw
    · rw [List.mem_singleton.1 hw]
      rfl
    · cases hw

theorem exists_quorumPut (kv : KVStore ν α) (st : NodeStore ν α) (key : Str) (value : KvValue α)
    (ttl : Option ℚ) (now : ℚ) : ∃ tail,
      kv.quorumPutWrites st key value ttl now =
        kv.reindex key (st.get (kv.k key) .none) value ++ [.set (kv.k key) value] ++ tail ∧
      ∀ w ∈ tail, w.key = kv.expKey key := by
  refine ⟨_, rfl, ?_⟩
  intro w hw
  cases ttl with
  | some t =>
    rw [List.mem_singleton.1 hw]
    rfl
  | none => cases hw

theorem TimedExpiries.exists_sweep (h : kv.TimedExpiries st) (now : ℚ) (clock : ℕ → ℚ) :
    ∃ keys, kv.opWrites st now clock .sweepExpired = kv.deleteAll st clock keys ∧
      ∀ key, key ∈ keys ↔ st.live (kv.k key) ≠ none ∧ kv.isExpired st key now = true := by
  rw [opWrites, h.checkAll]
  refine ⟨_, rfl, ?_⟩
  intro key
  rw [Option.ne_none_iff_exists', k]
  simp only [← DistributedStore.mem_under_iff, List.filter_map, List.map_map, List.mem_map,
    List.mem_filter, Function.comp]
  constructor
  · rintro ⟨⟨key', v⟩, ⟨hp, hexp⟩, rfl⟩
    exact ⟨⟨v, hp⟩, hexp⟩
  · rintro ⟨⟨v, hp⟩, hexp⟩
    exact ⟨(key, v), ⟨hp, hexp⟩, rfl⟩

end

end KVStore

namespace KvAlone

/-- What holds after a run of clear calls. -/
structure Sound (past : List (KvAlone ν α × TimedCall α)) (s : KvAlone ν α) : Prop where
  indexed : s.table.Indexed s.kv.indexKey (Skipped past)
  noNone : s.kv.NoNone s.store
  timed : s.kv.TimedExpiries s.store

variable {past : List (KvAlone ν α × TimedCall α)} {s : KvAlone ν α}

section
omit [LinearOrder ν] [DecidableEq α]

theorem sound_init (nspace : Str) (n : ν) : (init nspace n : KvAlone ν α).Sound [] where
  indexed full := by
    constructor
    · rintro ⟨h, -⟩
      cases h
    · rintro ⟨key, i, f, v, hi, -⟩
      cases hi
  noNone key := nofun
  timed key v h := nomatch h

/-- A table with a value for a key has no key with the value `None`, if it had none before. -/
theorem noNone_of_write {kv : KVStore ν α} {st st' : NodeStore ν α} (h : kv.NoNone st)
    (hv : v ≠ .none) (ht : kv.table st' = (kv.table st).write kv.indexKey key v) :
    kv.NoNone st' := by
  intro key' he
  have hvalue : (kv.table st').value key' = some .none := he
  rw [ht, IndexedTable.value_write] at hvalue
  split at hvalue
  · exact hv (Option.some.inj hvalue)
  · exact h key' hvalue

theorem noNone_of_remove {kv : KVStore ν α} {st st' : NodeStore ν α} (h : kv.NoNone st)
    (ht : kv.table st' = (kv.table st).remove kv.indexKey ks) : kv.NoNone st' := by
  intro key' he
  have hvalue : (kv.table st').value key' = some .none := he
  rw [ht] at hvalue
  exact h key' (IndexedTable.value_of_remove hvalue)

end

section
omit [LinearOrder ν]

theorem Sound.write (h : s.Sound past) {c : TimedCall α} (hv : v ≠ .none)
    (horder : s.kv.Orderly key (s.store.get (s.kv.k key) .none) v)
    (hclear : ∀ full key', s.table.EntryOf s.kv.indexKey key full → key' ≠ key →
      s.Due past key' full → s.table.EntryFor s.kv.indexKey key v full)
    {ws tail : List (LocalWrite α)}
    (hws : ws = s.kv.reindex key (s.store.get (s.kv.k key) .none) v ++
      [.set (s.kv.k key) v] ++ tail) (htail : ∀ w ∈ tail, w.key = s.kv.expKey key)
    (hskip : Skipped ((s, c) :: past) = fun name key' => key' ≠ key ∧ Skipped past name key') :
    (s.kv.table (s.store.applyWrites clock ws).1).Indexed s.kv.indexKey (Skipped ((s, c) :: past)) ∧
      s.kv.NoNone (s.store.applyWrites clock ws).1 := by
  have ht := KVStore.table_write clock h.noNone hv horder htail
  rw [← hws] at ht
  refine ⟨?_, noNone_of_write h.noNone hv ht⟩
  rw [ht, hskip]
  exact h.indexed.write_iff.2 hclear

theorem Sound.delete (h : s.Sound past) (clock : ℕ → ℚ) (hclear : s.Apart past {key}) :
    (s.kv.table (s.store.applyWrites clock (s.kv.delete s.store key clock)).1).Indexed
        s.kv.indexKey (Skipped past) ∧
      s.kv.NoNone (s.store.applyWrites clock (s.kv.delete s.store key clock)).1 := by
  refine ⟨?_, h.noNone.delete clock key⟩
  rw [KVStore.table_delete h.noNone]
  exact (h.indexed.remove_iff _).2 hclear

theorem Sound.sweep (h : s.Sound past) (now : ℚ) (clock : ℕ → ℚ)
    (hclear : s.Apart past {key | key ∉ s.unexpired now}) :
    (s.kv.table (s.store.applyWrites clock
        (s.kv.opWrites s.store now clock .sweepExpired)).1).Indexed s.kv.indexKey (Skipped past) ∧
      s.kv.NoNone (s.store.applyWrites clock
        (s.kv.opWrites s.store now clock .sweepExpired)).1 := by
  obtain ⟨keys, hws, hkeys⟩ := h.timed.exists_sweep now clock
  have ht := KVStore.table_deleteAll h.noNone clock keys
  rw [hws]
  refine ⟨?_, noNone_of_remove h.noNone ht⟩
  rw [ht]
  apply (h.indexed.remove_iff _).2
  intro key hkey full key' hold hkey' hdue
  have hexpired : ∀ k, k ∉ s.unexpired now ↔ s.kv.isExpired s.store k now = true :=
    fun k => iff_of_eq (Bool.not_eq_false _)
  have hmem := (hexpired key).2 ((hkeys key).1 hkey).2
  refine hclear key hmem full key' hold ?_ hdue
  intro hno
  obtain ⟨v, hlive, -⟩ := hdue.entryOf
  have hsome : s.store.live (s.kv.k key') = some v := hlive
  apply hkey'
  exact (hkeys key').2 ⟨by rw [hsome]; exact nofun, (hexpired key').1 hno⟩

theorem Sound.createIndex (h : s.Sound past) {f : KvValue α → Str} (now : ℚ) (clock : ℕ → ℚ)
    (hsame : ∀ f' key v, s.kv.indexes.get name = some f' → s.store.live (s.kv.k key) = some v →
      ¬ Skipped past name key → f v = f' v) :
    ((s.kv.afterOp (.createIndex name f)).table (s.store.applyWrites clock
        (s.kv.opWrites s.store now clock (.createIndex name f))).1).Indexed s.kv.indexKey
        (s.table.skippedBy (Skipped past) name (s.unexpired now)) ∧
      s.kv.NoNone (s.store.applyWrites clock
        (s.kv.opWrites s.store now clock (.createIndex name f))).1 := by
  obtain ⟨l, hl, hmem⟩ := h.timed.mem_checkedScan now
  have hws : s.kv.opWrites s.store now clock (.createIndex name f) =
      l.map (fun p => .set (s.kv.indexKey name (f p.2) p.1) .true) := by
    rw [KVStore.opWrites, hl]
  have ht := KVStore.table_createIndex clock name f (s.unexpired now) hmem
  rw [hws]
  constructor
  · rw [ht]
    exact h.indexed.create (s.unexpired now) hsame
  · intro key he
    have hvalue : ((s.kv.afterOp (.createIndex name f)).table (s.store.applyWrites clock
        (l.map (fun p => .set (s.kv.indexKey name (f p.2) p.1) .true))).1).value key =
        some .none := he
    rw [ht] at hvalue
    exact h.noNone key hvalue

theorem Sound.indexed_step (h : s.Sound past) {c : TimedCall α} (hv : c.PutsValues)
    (hclear : s.Clear past c) (hs : s.step c = some s') :
    s'.table.Indexed s'.kv.indexKey (Skipped ((s, c) :: past)) ∧ s'.kv.NoNone s'.store := by
  obtain ⟨op, now, clock⟩ := c
  cases hs
  cases op with
  | put key value ttl =>
    obtain ⟨tail, hws, htail⟩ := s.kv.exists_put s.store key value ttl now clock
    exact h.write hv hclear.1 hclear.2 hws htail rfl
  | quorumPut key value ttl =>
    obtain ⟨tail, hws, htail⟩ := s.kv.exists_quorumPut s.store key value ttl now
    exact h.write hv hclear.1 hclear.2 hws htail rfl
  | delete key => exact h.delete clock hclear
  | get key =>
    have hws : s.kv.opWrites s.store now clock (.get key) =
        if s.kv.isExpired s.store key now = true then s.kv.delete s.store key clock else [] := by
      rw [KVStore.opWrites, h.timed.checkExpired]
      simp only [Option.some.injEq]
    simp only [table, hws]
    cases hexp : s.kv.isExpired s.store key now with
    | false => exact ⟨h.indexed, h.noNone⟩
    | true => exact h.delete clock (hclear hexp)
  | sweepExpired =>
    have hafter : s.kv.afterOp (.sweepExpired : KvOp α) = s.kv := rfl
    simp only [table, hafter]
    exact h.sweep now clock hclear
  | createIndex name f =>
    exact h.createIndex now clock hclear

theorem Sound.next (h : s.Sound past) {c : TimedCall α} (hv : c.PutsValues)
    (hclear : s.Clear past c) (hs : s.step c = some s') : s'.Sound ((s, c) :: past) where
  indexed := (h.indexed_step hv hclear hs).1
  noNone := (h.indexed_step hv hclear hs).2
  timed key v hlive := by
    cases hs
    have hbase := KVStore.expKey_eq (s.kv.base_afterOp c.op) key
    rw [hbase] at hlive
    cases DistributedStore.live_applyWrites_or hlive with
    | inl hold => exact h.timed key v hold
    | inr hset => exact KVStore.time_of_mem_opWrites hset

theorem Sound.of_run (hrun : Run step (init nspace n) past s)
    (hv : ∀ p ∈ past, p.2.PutsValues)
    (hclear : ∀ post t c pre, past = post ++ (t, c) :: pre → t.Clear pre c) : s.Sound past := by
  induction hrun with
  | start => exact sound_init nspace n
  | @next past s c s' hrun hs ih =>
    have hsound := ih (fun p hp => hv p (List.mem_cons_of_mem _ hp))
      (fun post t c' pre hpast => hclear ((s, c) :: post) t c' pre (by rw [hpast]; rfl))
    exact hsound.next (hv (s, c) List.mem_cons_self) (hclear [] s c past rfl) hs

end

end KvAlone

theorem insertionSort_eq_iff {l l' : List Str} (hl : l.Nodup) (hl' : l'.Nodup) :
    l.insertionSort (· ≤ ·) = l'.insertionSort (· ≤ ·) ↔ ∀ r, r ∈ l ↔ r ∈ l' := by
  constructor
  · intro h r
    rw [← List.mem_insertionSort (r := (· ≤ ·)), h, List.mem_insertionSort]
  · intro h
    have hperm := (List.perm_ext_iff_of_nodup hl hl').2 h
    have hsorted := ((List.perm_insertionSort (· ≤ ·) l).trans hperm).trans
      (List.perm_insertionSort (· ≤ ·) l').symm
    exact hsorted.eq_of_pairwise' (List.pairwise_insertionSort _ _)
      (List.pairwise_insertionSort _ _)

namespace DistributedStore

section
omit [LinearOrder ν] [DecidableEq α]

theorem nodup_under (st : NodeStore ν α) (pre : Str) : ((st.under pre).map Prod.fst).Nodup := by
  have hitems : (st.items.map Prod.fst).Nodup := by
    have hkeys : st.items.map Prod.fst =
        (st.data.items.filter (fun p => !p.2.deleted)).map Prod.fst := by
      rw [items, List.map_map]
      rfl
    rw [hkeys]
    exact (List.filter_sublist.map Prod.fst).nodup st.data.nodup
  have hfilter := (List.filter_sublist (p := fun p => pre.isPrefixOf p.1).map Prod.fst).nodup hitems
  rw [under, List.map_map]
  refine List.Nodup.map_on ?_ (List.Nodup.of_map _ hfilter)
  intro p hp q hq he
  obtain ⟨hp, hpre⟩ := List.mem_filter.1 hp
  obtain ⟨hq, hqre⟩ := List.mem_filter.1 hq
  obtain ⟨r, hr⟩ := List.isPrefixOf_iff_prefix.1 hpre
  obtain ⟨r', hr'⟩ := List.isPrefixOf_iff_prefix.1 hqre
  have hrr : r = r' := by
    have hdrop : p.1.drop pre.length = q.1.drop pre.length := he
    rw [← hr, ← hr', List.drop_left, List.drop_left] at hdrop
    exact hdrop
  have hkey : p.1 = q.1 := by rw [← hr, ← hr', hrr]
  exact List.inj_on_of_nodup_map hitems hp hq hkey

end

end DistributedStore

namespace KvAlone

variable {past : List (KvAlone ν α × TimedCall α)} {s : KvAlone ν α}

section
omit [LinearOrder ν] [DecidableEq α]

theorem mem_keysWith : r ∈ s.keysWith f x now ↔ r ∈ s.unexpired now ∧ s.HasIndexKey f x r := by
  rw [keysWith, List.mem_insertionSort, List.mem_map]
  constructor
  · rintro ⟨⟨r, v⟩, hp, rfl⟩
    obtain ⟨hp, hv⟩ := List.mem_filter.1 hp
    rw [Bool.and_eq_true, decide_eq_true_eq, Bool.not_eq_true'] at hv
    exact ⟨hv.2, v, DistributedStore.mem_under_iff.1 hp, hv.1⟩
  · rintro ⟨hexp, v, hlive, hv⟩
    refine ⟨(r, v), List.mem_filter.2 ⟨DistributedStore.mem_under_iff.2 hlive, ?_⟩, rfl⟩
    rw [Bool.and_eq_true, decide_eq_true_eq, Bool.not_eq_true']
    exact ⟨hv, hexp⟩

theorem Sound.queryIndex_iff (h : s.Sound past) (name : Str) (f : KvValue α → Str) (x : Str)
    (now : ℚ) : s.kv.queryIndex s.store name x now = some (s.keysWith f x now) ↔
      ∀ r ∈ s.unexpired now,
        (s.kv.indexKey name x r ∈ s.table.entries ↔ s.HasIndexKey f x r) := by
  have hmem : ∀ r, r ∈ ((s.store.under (s.kv.queryPrefix name x)).filter
      (fun p => !s.kv.isExpired s.store p.1 now)).map Prod.fst ↔
      r ∈ s.unexpired now ∧ s.kv.indexKey name x r ∈ s.table.entries := by
    intro r
    rw [List.mem_map]
    constructor
    · rintro ⟨⟨r, v⟩, hp, rfl⟩
      obtain ⟨hp, hexp⟩ := List.mem_filter.1 hp
      rw [Bool.not_eq_true'] at hexp
      refine ⟨hexp, ?_, name, x, r, rfl⟩
      rw [DistributedStore.contains_eq_live, Option.isSome_iff_exists]
      exact ⟨v, DistributedStore.mem_under_iff.1 hp⟩
    · rintro ⟨hexp, hcontains, -⟩
      rw [DistributedStore.contains_eq_live, Option.isSome_iff_exists] at hcontains
      obtain ⟨v, hlive⟩ := hcontains
      refine ⟨(r, v), List.mem_filter.2 ⟨DistributedStore.mem_under_iff.2 hlive, ?_⟩, rfl⟩
      rw [Bool.not_eq_true']
      exact hexp
  have hunder := (List.filter_sublist (p := fun p => !s.kv.isExpired s.store p.1 now).map
    Prod.fst).nodup (DistributedStore.nodup_under s.store (s.kv.queryPrefix name x))
  have hns := (List.filter_sublist (p := fun p => f p.2 = x &&
    !s.kv.isExpired s.store p.1 now).map Prod.fst).nodup
    (DistributedStore.nodup_under s.store s.kv.ns)
  rw [KVStore.queryIndex, h.timed.checkAll, Option.map_some, Option.some.injEq,
    KVStore.TimedExpiries.unexpired_map, keysWith, insertionSort_eq_iff hunder hns]
  apply forall_congr'
  intro r
  rw [hmem, ← List.mem_insertionSort (r := (· ≤ ·)), ← keysWith, mem_keysWith]
  exact and_congr_right_iff

theorem Sound.queryIndex_eq_iff (h : s.Sound past) (hname : s.kv.indexes.get name = some f)
    (x : Str) (now : ℚ) : s.kv.queryIndex s.store name x now = some (s.keysWith f x now) ↔
      ¬ Misread past s name f x now ∧ ¬ Missed past s name f x now := by
  rw [h.queryIndex_iff]
  constructor
  · intro hall
    constructor
    · rintro ⟨r, hr, key, hdue, hno⟩
      have hread := ((h.indexed.mem_entries_iff hname x r).1 (hall r hr)).1
      exact hno (hread key hdue)
    · rintro ⟨r, hr, hskip, hhas, hno⟩
      have hmiss := ((h.indexed.mem_entries_iff hname x r).1 (hall r hr)).2
      exact hno (hmiss hskip hhas)
  · rintro ⟨hread, hmiss⟩ r hr
    apply (h.indexed.mem_entries_iff hname x r).2
    constructor
    · intro key hdue
      by_contra hno
      exact hread ⟨r, hr, key, hdue, hno⟩
    · intro hskip hhas
      by_contra hno
      exact hmiss ⟨r, hr, hskip, hhas, hno⟩

end

end KvAlone

section
omit [LinearOrder ν]

/-- After a run of clear calls a query of an index is right exactly when no entry of another key
reads like one with this index key and no unexpired key with it has been skipped. -/
theorem index_agrees_iff {past : List (KvAlone ν α × TimedCall α)} {s : KvAlone ν α}
    (hrun : Run KvAlone.step (.init nspace n) past s)
    (hvalues : ∀ p ∈ past, p.2.PutsValues)
    (hclear : ∀ post t c pre, past = post ++ (t, c) :: pre → t.Clear pre c)
    (hname : s.kv.indexes.get name = some f) (x : Str) (now : ℚ) :
    s.kv.queryIndex s.store name x now = some (s.keysWith f x now) ↔
      ¬ s.Misread past name f x now ∧ ¬ s.Missed past name f x now :=
  (KvAlone.Sound.of_run hrun hvalues hclear).queryIndex_eq_iff hname x now

end

namespace KvAlone

/-- An index that gives every value the same index key. -/
def makeIndex (x : Str) : TimedCall ℕ := ⟨.createIndex ['i'] (fun _ => x), 1, fun _ => 1⟩

def putKey : TimedCall ℕ := ⟨.put ['k'] (.data 7) none, 2, fun _ => 2⟩

def indexed (x : Str) : KvAlone (Fin 1) ℕ :=
  ⟨(KVStore.init ['k', 'v', '/']).afterOp (makeIndex x).op, .init 0⟩

def indexedKey (x : Str) : KvAlone (Fin 1) ℕ :=
  ⟨(indexed x).kv, ((indexed x).store.applyWrites putKey.clock
    ((indexed x).kv.opWrites (indexed x).store putKey.now putKey.clock putKey.op)).1⟩

def indexedPast (x : Str) : List (KvAlone (Fin 1) ℕ × TimedCall ℕ) :=
  [(indexed x, putKey), (init ['k', 'v', '/'] 0, makeIndex x)]

theorem run_indexedKey (x : Str) :
    Run step (init ['k', 'v', '/'] 0) (indexedPast x) (indexedKey x) :=
  (Run.start.next rfl).next rfl

theorem putsValues_indexedPast (x : Str) : ∀ p ∈ indexedPast x, p.2.PutsValues := by
  intro p hp
  cases List.mem_cons.1 hp with
  | inl hp =>
    rw [hp]
    exact nofun
  | inr hp =>
    rw [List.mem_singleton.1 hp]
    trivial

theorem clear_indexedPast (x : Str) (h : indexedPast x = post ++ (t, c) :: pre) :
    t.Clear pre c := by
  cases post with
  | nil =>
    cases h
    constructor
    · exact List.pairwise_singleton _ _
    · rintro full key' ⟨v, hv, -⟩
      cases hv
  | cons p post =>
    cases post with
    | nil =>
      cases h
      intro f' key v hf
      cases hf
    | cons q post =>
      cases post with
      | nil => cases h
      | cons r post => cases h

theorem index_agrees_iff_indexedKey :
    (indexedKey ['a']).keysWith (fun _ => ['a']) ['a'] 3 = [['k']] ∧
    ∀ x now, (indexedKey ['a']).kv.queryIndex (indexedKey ['a']).store ['i'] x now =
        some ((indexedKey ['a']).keysWith (fun _ => ['a']) x now) ↔
      ¬ (indexedKey ['a']).Misread (indexedPast ['a']) ['i'] (fun _ => ['a']) x now ∧
        ¬ (indexedKey ['a']).Missed (indexedPast ['a']) ['i'] (fun _ => ['a']) x now :=
  ⟨by decide, fun x now => index_agrees_iff (run_indexedKey ['a']) (putsValues_indexedPast ['a'])
    (fun _ _ _ _ h => clear_indexedPast ['a'] h) rfl x now⟩

/-- A slash in an index key looks like its end: the entry for the key `k` with the index key `a/b`
is read as one for the key `b/k` with the index key `a`. -/
theorem slash_misreads_entry : ¬ ∀ (past : List (KvAlone (Fin 1) ℕ × TimedCall ℕ))
    (s : KvAlone (Fin 1) ℕ) (name : Str) (f : KvValue ℕ → Str) (x : Str) (now : ℚ),
    Run step (init ['k', 'v', '/'] 0) past s → (∀ p ∈ past, p.2.PutsValues) →
      s.kv.indexes.get name = some f →
        s.kv.queryIndex s.store name x now = some (s.keysWith f x now) := by
  intro hclaim
  have hquery := hclaim (indexedPast ['a', '/', 'b']) (indexedKey ['a', '/', 'b']) ['i']
    (fun _ => ['a', '/', 'b']) ['a'] 3 (run_indexedKey _) (putsValues_indexedPast _) rfl
  have hread : (indexedKey ['a', '/', 'b']).kv.queryIndex (indexedKey ['a', '/', 'b']).store
      ['i'] ['a'] 3 = some [['b', '/', 'k']] := by decide
  rw [hread] at hquery
  exact absurd hquery (by decide)

end KvAlone

end Suprime
