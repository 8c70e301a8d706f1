import Suprime.IndexedTable
import Suprime.Namespaces

namespace Suprime
set_option autoImplicit true

variable {ν α : Type} [LinearOrder ν] [DecidableEq α]

/-- What a write leaves at its key. -/
def LocalWrite.live : LocalWrite α → Option (KvValue α)
  | .set _ value => some value
  | .delete _ => none

namespace DistributedStore

section
omit [LinearOrder ν] [DecidableEq α]

theorem mem_under_iff {st : NodeStore ν α} :
    (r, v) ∈ st.under pre ↔ st.live (pre ++ r) = some v := by
  rw [under, ← mem_items_iff, List.mem_map]
  constructor
  · rintro ⟨⟨full, v'⟩, hmem, hp⟩
    obtain ⟨hmem, hpre⟩ := List.mem_filter.1 hmem
    obtain ⟨rest, rfl⟩ := List.isPrefixOf_iff_prefix.1 hpre
    simp only [List.drop_left, Prod.mk.injEq] at hp
    rw [← hp.1, ← hp.2]
    exact hmem
  · intro h
    refine ⟨(pre ++ r, v), List.mem_filter.2 ⟨h, ?_⟩, ?_⟩
    · exact List.isPrefixOf_iff_prefix.2 (List.prefix_append _ _)
    · rw [List.drop_left]

theorem live_applyWrite (st : NodeStore ν α) (clock : ℚ) (w : LocalWrite α) (full : Str) :
    (st.applyWrite clock w).1.live full = if full = w.key then w.live else st.live full := by
  by_cases hkey : full = w.key
  · rw [if_pos hkey]
    cases w with
    | set key value =>
      have hkey : full = key := hkey
      rw [hkey, live, applyWrite, set_store, get_putLocal, if_pos rfl]
      rfl
    | delete key =>
      have hkey : full = key := hkey
      rw [hkey, live, applyWrite]
      cases hk : st.data.get key with
      | none =>
        rw [delete_of_none hk, hk]
        rfl
      | some c =>
        rw [delete_of_some hk, get_putLocal, if_pos rfl]
        rfl
  · rw [if_neg hkey, live, get_applyWrite_ne clock (Ne.symm hkey), live]

theorem contains_applyWrite (st : NodeStore ν α) (clock : ℚ) (w : LocalWrite α) (full : Str) :
    (st.applyWrite clock w).1.contains full =
      if full = w.key then w.live.isSome else st.contains full := by
  rw [contains_eq_live, live_applyWrite, contains_eq_live]
  exact apply_ite Option.isSome _ _ _

theorem applyWrites_append_fst (st : NodeStore ν α) (clock : ℕ → ℚ) (ws ws' : List (LocalWrite α)) :
    (st.applyWrites clock (ws ++ ws')).1 =
      ((st.applyWrites clock ws).1.applyWrites (fun i => clock (i + ws.length)) ws').1 := by
  rw [applyWrites_append]

theorem live_applyWrites_ne {st : NodeStore ν α} {ws : List (LocalWrite α)} (clock : ℕ → ℚ)
    (h : ∀ w ∈ ws, w.key ≠ full) : (st.applyWrites clock ws).1.live full = st.live full := by
  rw [live, live, get_applyWrites_ne clock h]

theorem live_applyWrites_or {st : NodeStore ν α} {ws : List (LocalWrite α)} {clock : ℕ → ℚ}
    (h : (st.applyWrites clock ws).1.live full = some v) :
    st.live full = some v ∨ .set full v ∈ ws := by
  induction ws generalizing st clock with
  | nil => exact .inl h
  | cons w ws ih =>
    have hrest : ((st.applyWrite (clock 0) w).1.applyWrites (fun i => clock (i + 1)) ws).1.live
        full = some v := h
    cases ih hrest with
    | inl h =>
      rw [live_applyWrite] at h
      by_cases hkey : full = w.key
      · rw [if_pos hkey] at h
        cases w with
        | set key value =>
          have hkey : full = key := hkey
          rw [hkey, ← Option.some.inj h]
          exact .inr List.mem_cons_self
        | delete key => cases h
      · rw [if_neg hkey] at h
        exact .inl h
    | inr h => exact .inr (List.mem_cons_of_mem _ h)

theorem contains_applyWrites_set (st : NodeStore ν α) {ws : List (LocalWrite α)} (clock : ℕ → ℚ)
    (h : ∀ w ∈ ws, w.live.isSome = true) (full : Str) :
    (st.applyWrites clock ws).1.contains full = true ↔
      st.contains full = true ∨ ∃ w ∈ ws, w.key = full := by
  induction ws generalizing st clock with
  | nil => simp [applyWrites]
  | cons w ws ih =>
    have hstep := ih (st.applyWrite (clock 0) w).1 (fun i => clock (i + 1))
      (fun w' hw' => h w' (List.mem_cons_of_mem _ hw'))
    rw [contains_applyWrite] at hstep
    refine hstep.trans ?_
    rw [List.exists_mem_cons_iff, ← or_assoc]
    apply or_congr_left
    by_cases hkey : full = w.key
    · rw [if_pos hkey]
      exact iff_of_true (h w List.mem_cons_self) (.inr hkey.symm)
    · rw [if_neg hkey]
      exact (or_iff_left (Ne.symm hkey)).symm

theorem contains_applyWrites_delete (st : NodeStore ν α) {ws : List (LocalWrite α)} (clock : ℕ → ℚ)
    (h : ∀ w ∈ ws, w.live = none) (full : Str) :
    (st.applyWrites clock ws).1.contains full = true ↔
      st.contains full = true ∧ ¬ ∃ w ∈ ws, w.key = full := by
  induction ws generalizing st clock with
  | nil => simp [applyWrites]
  | cons w ws ih =>
    have hstep := ih (st.applyWrite (clock 0) w).1 (fun i => clock (i + 1))
      (fun w' hw' => h w' (List.mem_cons_of_mem _ hw'))
    rw [contains_applyWrite] at hstep
    refine hstep.trans ?_
    rw [List.exists_mem_cons_iff, not_or, ← and_assoc]
    apply and_congr_left
    intro _
    by_cases hkey : full = w.key
    · rw [if_pos hkey, h w List.mem_cons_self]
      exact iff_of_false (by simp) (fun hno => hno.2 hkey.symm)
    · rw [if_neg hkey]
      exact (and_iff_left (Ne.symm hkey)).symm

end

end DistributedStore

namespace DistributedStore

section
omit [LinearOrder ν] [DecidableEq α]

theorem contains_applyWrite_delete (st : NodeStore ν α) (clock : ℚ) (key full : Str) :
    (st.applyWrite clock (.delete key)).1.contains full = true ↔
      st.contains full = true ∧ full ≠ key := by
  rw [contains_applyWrite, LocalWrite.key]
  by_cases h : full = key
  · rw [if_pos h]
    exact iff_of_false (fun h => by cases h) (fun hno => hno.2 h)
  · rw [if_neg h]
    exact (and_iff_left h).symm

theorem contains_applyWrite_set (st : NodeStore ν α) (clock : ℚ) (key full : Str) (v : KvValue α) :
    (st.applyWrite clock (.set key v)).1.contains full = true ↔
      full = key ∨ st.contains full = true := by
  rw [contains_applyWrite, LocalWrite.key]
  by_cases h : full = key
  · rw [if_pos h]
    exact iff_of_true rfl (.inl h)
  · rw [if_neg h]
    exact (or_iff_right h).symm

end

end DistributedStore

namespace KVStore

open DistributedStore

variable {kv : KVStore ν α} {st : NodeStore ν α}

/-- The writes of `_reindex` for one index. -/
def reindexOne (kv : KVStore ν α) (key : Str) (oldValue newValue : KvValue α)
    (p : Str × (KvValue α → Str)) : List (LocalWrite α) :=
  (if oldValue = .none then [] else [.delete (kv.indexKey p.1 (p.2 oldValue) key)]) ++
    (if newValue = .none then [] else [.set (kv.indexKey p.1 (p.2 newValue) key) .true])

section
omit [LinearOrder ν]

theorem contains_reindexOne (st : NodeStore ν α) (clock : ℕ → ℚ) (key : Str)
    (oldValue newValue : KvValue α) (p : Str × (KvValue α → Str)) (full : Str) :
    (st.applyWrites clock (kv.reindexOne key oldValue newValue p)).1.contains full = true ↔
      (newValue ≠ .none ∧ full = kv.indexKey p.1 (p.2 newValue) key) ∨
      st.contains full = true ∧
        ¬ (oldValue ≠ .none ∧ full = kv.indexKey p.1 (p.2 oldValue) key) := by
  rw [reindexOne]
  by_cases hold : oldValue = .none
  · by_cases hnew : newValue = .none
    · simp [hold, hnew, applyWrites]
    · simp only [if_pos hold, if_neg hnew, List.nil_append, applyWrites,
      contains_applyWrite_set]
      simp [hold, hnew]
  · by_cases hnew : newValue = .none
    · simp only [if_neg hold, if_pos hnew, List.append_nil, applyWrites,
      contains_applyWrite_delete]
      simp [hold, hnew]
    · simp only [if_neg hold, if_neg hnew, List.singleton_append, applyWrites,
        contains_applyWrite_set,
        contains_applyWrite_delete]
      simp [hold, hnew]

end

/-- No index takes away again the entry that one before it has made for the new value. -/
def Orderly (kv : KVStore ν α) (key : Str) (oldValue newValue : KvValue α) : Prop :=
  kv.indexes.items.Pairwise (fun q p => oldValue ≠ .none → newValue ≠ .none →
    kv.indexKey p.1 (p.2 oldValue) key = kv.indexKey q.1 (q.2 newValue) key →
      p.2 oldValue = p.2 newValue)

section
omit [LinearOrder ν]

/-- When the indexes do not interfere, `_reindex` makes the entries of the new value and takes
away the others of the old one. -/
theorem contains_reindex (st : NodeStore ν α) (clock : ℕ → ℚ) {key : Str}
    {oldValue newValue : KvValue α} (h : kv.Orderly key oldValue newValue) (full : Str) :
    (st.applyWrites clock (kv.reindex key oldValue newValue)).1.contains full = true ↔
      (∃ p ∈ kv.indexes.items, newValue ≠ .none ∧ full = kv.indexKey p.1 (p.2 newValue) key) ∨
      st.contains full = true ∧ ¬ ∃ p ∈ kv.indexes.items,
        oldValue ≠ .none ∧ full = kv.indexKey p.1 (p.2 oldValue) key := by
  have hflat : kv.reindex key oldValue newValue =
      kv.indexes.items.flatMap (kv.reindexOne key oldValue newValue) := rfl
  rw [hflat]
  rw [Orderly] at h
  generalize kv.indexes.items = l at h ⊢
  induction l generalizing st clock with
  | nil => simp [applyWrites]
  | cons p l ih =>
    obtain ⟨hp, hl⟩ := List.pairwise_cons.1 h
    rw [List.flatMap_cons, applyWrites_append_fst]
    refine (ih _ _ hl).trans ?_
    rw [contains_reindexOne, List.exists_mem_cons_iff, List.exists_mem_cons_iff]
    constructor
    · rintro (hnew | ⟨hnew | ⟨hst, hno⟩, hrest⟩)
      · exact .inl (.inr hnew)
      · exact .inl (.inl hnew)
      · exact .inr ⟨hst, fun hex => hex.elim hno hrest⟩
    · rintro ((hnew | hnew) | ⟨hst, hno⟩)
      · by_cases hex : ∃ q ∈ l, oldValue ≠ .none ∧ full = kv.indexKey q.1 (q.2 oldValue) key
        · obtain ⟨q, hq, hold, he⟩ := hex
          have hsame := hp q hq hold hnew.1 (he.symm.trans hnew.2)
          exact .inl ⟨q, hq, hnew.1, by rw [he, hsame]⟩
        · exact .inr ⟨.inl hnew, hex⟩
      · exact .inl hnew
      · exact .inr ⟨.inr ⟨hst, fun hold => hno (.inl hold)⟩, fun hold => hno (.inr hold)⟩

end

/-- The values of the database with its indexes and what the store has for them. -/
def table (kv : KVStore ν α) (st : NodeStore ν α) :
    IndexedTable Str Str Str (KvValue α) Str where
  value key := st.live (kv.k key)
  index name := kv.indexes.get name
  entries := {full | st.contains full = true ∧ ∃ name i key, full = kv.indexKey name i key}

section
omit [LinearOrder ν] [DecidableEq α]

theorem entryFor_iff : (kv.table st).EntryFor kv.indexKey key v full ↔
    ∃ p ∈ kv.indexes.items, full = kv.indexKey p.1 (p.2 v) key := by
  constructor
  · rintro ⟨name, f, hf, he⟩
    exact ⟨(name, f), Dict.mem_items.2 hf, he⟩
  · rintro ⟨p, hp, he⟩
    exact ⟨p.1, p.2, Dict.mem_items.1 hp, he⟩

end

/-- The database has no key with the value `None`. -/
def NoNone (kv : KVStore ν α) (st : NodeStore ν α) : Prop :=
  ∀ key, st.live (kv.k key) ≠ some .none

section
omit [LinearOrder ν] [DecidableEq α]

theorem NoNone.get_iff (h : kv.NoNone st) (key : Str) (v : KvValue α) :
    st.live (kv.k key) = some v ↔
      st.get (kv.k key) .none ≠ .none ∧ st.get (kv.k key) .none = v := by
  rw [get_eq_live]
  cases hk : st.live (kv.k key) with
  | none => exact iff_of_false (fun h => by cases h) (fun hno => hno.1 rfl)
  | some w =>
    have hw : w ≠ .none := fun he => h key (by rw [hk, he])
    simp [hw]

theorem NoNone.entryOf_iff (h : kv.NoNone st) (key full : Str) :
    (kv.table st).EntryOf kv.indexKey key full ↔
      ∃ p ∈ kv.indexes.items, st.get (kv.k key) .none ≠ .none ∧
        full = kv.indexKey p.1 (p.2 (st.get (kv.k key) .none)) key := by
  have hentry : (kv.table st).EntryOf kv.indexKey key full ↔ ∃ v,
      st.live (kv.k key) = some v ∧ (kv.table st).EntryFor kv.indexKey key v full := Iff.rfl
  rw [hentry]
  constructor
  · rintro ⟨v, hv, he⟩
    obtain ⟨p, hp, he⟩ := entryFor_iff.1 he
    obtain ⟨hne, rfl⟩ := (h.get_iff key v).1 hv
    exact ⟨p, hp, hne, he⟩
  · rintro ⟨p, hp, hne, he⟩
    exact ⟨_, (h.get_iff key _).2 ⟨hne, rfl⟩, entryFor_iff.2 ⟨p, hp, he⟩⟩

end

section

variable {clock : ℕ → ℚ} {key : Str} {v : KvValue α} {tail : List (LocalWrite α)}

section
omit [LinearOrder ν]

/-- Calls that give a key a value write its entries and the value, and then its expiry at most. -/
theorem live_write (htail : ∀ w ∈ tail, w.key = kv.expKey key) (oldValue : KvValue α)
    (key' : Str) :
    (st.applyWrites clock (kv.reindex key oldValue v ++ [.set (kv.k key) v] ++ tail)).1.live
      (kv.k key') = if key' = key then some v else st.live (kv.k key') := by
  have hlast : ∀ w ∈ tail, w.key ≠ kv.k key' := by
    intro w hw he
    exact kv.k_ne_expKey key' key (he.symm.trans (htail w hw))
  have hfirst : ∀ w ∈ kv.reindex key oldValue v, w.key ≠ kv.k key' := by
    intro w hw he
    obtain ⟨name, i, hi⟩ := mem_reindex hw
    exact kv.k_ne_indexKey key' name i key (he.symm.trans hi)
  rw [applyWrites_append_fst, applyWrites_append_fst, live_applyWrites_ne _ hlast, applyWrites,
    applyWrites, live_applyWrite, live_applyWrites_ne _ hfirst, LocalWrite.key, LocalWrite.live]
  by_cases hk : key' = key
  · rw [if_pos hk, if_pos (congrArg kv.k hk)]
  · rw [if_neg hk, if_neg (fun he => hk (kv.k_inj he))]

theorem contains_write (htail : ∀ w ∈ tail, w.key = kv.expKey key) (oldValue : KvValue α)
    (name i r : Str) :
    (st.applyWrites clock (kv.reindex key oldValue v ++ [.set (kv.k key) v] ++ tail)).1.contains
      (kv.indexKey name i r) =
    (st.applyWrites clock (kv.reindex key oldValue v)).1.contains (kv.indexKey name i r) := by
  have hlast : ∀ w ∈ [.set (kv.k key) v] ++ tail, w.key ≠ kv.indexKey name i r := by
    intro w hw
    cases List.mem_cons.1 hw with
    | inl hw =>
      rw [hw]
      exact kv.k_ne_indexKey key name i r
    | inr hw =>
      rw [htail w hw]
      exact kv.expKey_ne_indexKey key name i r
  rw [contains_eq_live, contains_eq_live, List.append_assoc, applyWrites_append_fst,
    live_applyWrites_ne _ hlast]

theorem table_write (clock : ℕ → ℚ) (h : kv.NoNone st) (hv : v ≠ .none)
    (horder : kv.Orderly key (st.get (kv.k key) .none) v)
    (htail : ∀ w ∈ tail, w.key = kv.expKey key) :
    kv.table (st.applyWrites clock (kv.reindex key (st.get (kv.k key) .none) v ++
      [.set (kv.k key) v] ++ tail)).1 = (kv.table st).write kv.indexKey key v := by
  apply IndexedTable.ext
  · funext key'
    have hupdate := Function.update_apply (kv.table st).value key (some v) key'
    exact (live_write htail _ key').trans hupdate.symm
  · rfl
  · ext full
    have hkeys : ∀ name i r, full = kv.indexKey name i r →
        ((st.applyWrites clock (kv.reindex key (st.get (kv.k key) .none) v ++
            [.set (kv.k key) v] ++ tail)).1.contains full = true ↔
          (kv.table st).EntryFor kv.indexKey key v full ∨
            st.contains full = true ∧ ¬ (kv.table st).EntryOf kv.indexKey key full) := by
      intro name i r he
      rw [h.entryOf_iff, entryFor_iff, he, contains_write htail, contains_reindex _ _ horder]
      simp only [ne_eq, hv, not_false_eq_true, true_and]
    constructor
    · rintro ⟨hmem, name, i, r, he⟩
      rw [hkeys name i r he] at hmem
      exact hmem.imp_right (fun hold => ⟨⟨hold.1, name, i, r, he⟩, hold.2⟩)
    · rintro (hnew | ⟨⟨hst, name, i, r, he⟩, hno⟩)
      · obtain ⟨name, f, -, he⟩ := id hnew
        exact ⟨(hkeys name (f v) key he).2 (.inl hnew), name, f v, key, he⟩
      · exact ⟨(hkeys name i r he).2 (.inr ⟨hst, hno⟩), name, i, r, he⟩

end

end

section
omit [LinearOrder ν]

theorem live_of_mem_delete {w : LocalWrite α} {clock : ℕ → ℚ} (h : w ∈ kv.delete st key clock) :
    w.live = none := by
  rw [(mem_delete h).1]
  rfl

theorem live_of_mem_deleteAll {w : LocalWrite α} {clock : ℕ → ℚ}
    (h : w ∈ kv.deleteAll st clock keys) : w.live = none := by
  rw [(mem_deleteAll h).1]
  rfl

theorem mem_reindex_none_iff {w : LocalWrite α} : w ∈ kv.reindex key oldValue .none ↔
    ∃ p ∈ kv.indexes.items, oldValue ≠ .none ∧
      w = .delete (kv.indexKey p.1 (p.2 oldValue) key) := by
  rw [reindex, List.mem_flatMap]
  by_cases hold : oldValue = .none
  · simp [hold]
  · simp [hold]

theorem exists_mem_delete_iff (h : kv.NoNone st) (clock : ℕ → ℚ) (name i r : Str) :
    (∃ w ∈ kv.delete st key clock, w.key = kv.indexKey name i r) ↔
      (kv.table st).EntryOf kv.indexKey key (kv.indexKey name i r) := by
  rw [h.entryOf_iff]
  constructor
  · rintro ⟨w, hw, he⟩
    cases List.mem_append.1 hw with
    | inl hw =>
      cases List.mem_append.1 hw with
      | inl hw =>
        obtain ⟨p, hp, hold, rfl⟩ := mem_reindex_none_iff.1 hw
        exact ⟨p, hp, hold, he.symm⟩
      | inr hw =>
        rw [List.mem_singleton.1 hw] at he
        exact absurd he (kv.k_ne_indexKey key name i r)
    | inr hw =>
      split at hw
      · rw [List.mem_singleton.1 hw] at he
        exact absurd he (kv.expKey_ne_indexKey key name i r)
      · cases hw
  · rintro ⟨p, hp, hold, he⟩
    refine ⟨_, List.mem_append_left _ (List.mem_append_left _
      (mem_reindex_none_iff.2 ⟨p, hp, hold, rfl⟩)), he.symm⟩

theorem live_delete (st : NodeStore ν α) (clock : ℕ → ℚ) (key key' : Str) :
    (st.applyWrites clock (kv.delete st key clock)).1.live (kv.k key') =
      if key' = key then none else st.live (kv.k key') := by
  by_cases hk : key' = key
  · rw [if_pos hk, hk, ← Option.not_isSome_iff_eq_none, ← contains_eq_live,
      contains_applyWrites_delete _ _ (fun w hw => live_of_mem_delete hw)]
    intro hno
    apply hno.2
    exact ⟨_, List.mem_append_left _ (List.mem_append_right _ (List.mem_singleton.2 rfl)), rfl⟩
  · rw [if_neg hk]
    apply live_applyWrites_ne
    intro w hw he
    have hown := (mem_delete hw).2
    rw [he] at hown
    exact hk hown.eq_of_k

theorem NoNone.delete (h : kv.NoNone st) (clock : ℕ → ℚ) (key : Str) :
    kv.NoNone (st.applyWrites clock (kv.delete st key clock)).1 := by
  intro key'
  rw [live_delete]
  split
  · exact nofun
  · exact h key'

theorem entryOf_delete (st : NodeStore ν α) (clock : ℕ → ℚ) (key key' full : Str) :
    (kv.table (st.applyWrites clock (kv.delete st key clock)).1).EntryOf kv.indexKey key' full ↔
      key' ≠ key ∧ (kv.table st).EntryOf kv.indexKey key' full := by
  have hvalue : (st.applyWrites clock (kv.delete st key clock)).1.live (kv.k key') =
      if key' = key then none else st.live (kv.k key') := live_delete st clock key key'
  simp only [IndexedTable.EntryOf, IndexedTable.EntryFor, table, hvalue]
  by_cases hk : key' = key
  · simp [hk]
  · simp [hk]

theorem exists_mem_deleteAll_iff (h : kv.NoNone st) (clock : ℕ → ℚ) (keys : List Str)
    (name i r : Str) : (∃ w ∈ kv.deleteAll st clock keys, w.key = kv.indexKey name i r) ↔
      ∃ key ∈ keys, (kv.table st).EntryOf kv.indexKey key (kv.indexKey name i r) := by
  induction keys generalizing st clock with
  | nil => simp [deleteAll]
  | cons key keys ih =>
    have hrest := ih (h.delete clock key) (fun i => clock (i + (kv.delete st key clock).length))
    simp only [entryOf_delete] at hrest
    simp only [deleteAll, List.mem_append, or_and_right, exists_or, exists_mem_delete_iff h, hrest,
      List.exists_mem_cons_iff]
    constructor
    · rintro (hkey | ⟨key', hkey', -, hentry⟩)
      · exact .inl hkey
      · exact .inr ⟨key', hkey', hentry⟩
    · rintro (hkey | ⟨key', hkey', hentry⟩)
      · exact .inl hkey
      · by_cases hk : key' = key
        · rw [hk] at hentry
          exact .inl hentry
        · exact .inr ⟨key', hkey', hk, hentry⟩

theorem live_deleteAll (st : NodeStore ν α) (clock : ℕ → ℚ) (keys : List Str) (key' : Str) :
    (st.applyWrites clock (kv.deleteAll st clock keys)).1.live (kv.k key') =
      if key' ∈ keys then none else st.live (kv.k key') := by
  induction keys generalizing st clock with
  | nil => rfl
  | cons key keys ih =>
    rw [deleteAll, applyWrites_append_fst, ih, live_delete]
    by_cases hk : key' = key
    · simp [hk]
    · simp [hk]

theorem table_deleteAll (h : kv.NoNone st) (clock : ℕ → ℚ) (keys : List Str) :
    kv.table (st.applyWrites clock (kv.deleteAll st clock keys)).1 =
      (kv.table st).remove kv.indexKey {key | key ∈ keys} := by
  apply IndexedTable.ext
  · funext key'
    refine (live_deleteAll st clock keys key').trans ?_
    by_cases hk : key' ∈ keys
    · exact (if_pos hk).trans (if_pos hk).symm
    · exact (if_neg hk).trans (if_neg hk).symm
  · rfl
  · ext full
    have hkeys : ∀ name i r, full = kv.indexKey name i r →
        ((st.applyWrites clock (kv.deleteAll st clock keys)).1.contains full = true ↔
          st.contains full = true ∧
            ∀ key ∈ keys, ¬ (kv.table st).EntryOf kv.indexKey key full) := by
      intro name i r he
      rw [contains_applyWrites_delete _ _ (fun w hw => live_of_mem_deleteAll hw), he,
        exists_mem_deleteAll_iff h]
      simp only [not_exists, not_and]
    constructor
    · rintro ⟨hmem, name, i, r, he⟩
      obtain ⟨hst, hno⟩ := (hkeys name i r he).1 hmem
      exact ⟨⟨hst, name, i, r, he⟩, hno⟩
    · rintro ⟨⟨hst, name, i, r, he⟩, hno⟩
      exact ⟨(hkeys name i r he).2 ⟨hst, hno⟩, name, i, r, he⟩

theorem table_delete (h : kv.NoNone st) (clock : ℕ → ℚ) (key : Str) :
    kv.table (st.applyWrites clock (kv.delete st key clock)).1 =
      (kv.table st).remove kv.indexKey {key} := by
  have hone : kv.deleteAll st clock [key] = kv.delete st key clock := List.append_nil _
  have hset : {key' | key' ∈ [key]} = ({key} : Set Str) := by
    ext key'
    exact List.mem_singleton
  rw [← hone, table_deleteAll h, hset]

end

section
omit [LinearOrder ν] [DecidableEq α]

theorem table_createIndex (clock : ℕ → ℚ) (name : Str) (f : KvValue α → Str) (ks : Set Str)
    {l : List (Str × KvValue α)}
    (hl : ∀ key v, (key, v) ∈ l ↔ st.live (kv.k key) = some v ∧ key ∈ ks) :
    (kv.afterOp (.createIndex name f)).table (st.applyWrites clock
      (l.map (fun p => .set (kv.indexKey name (f p.2) p.1) .true))).1 =
      (kv.table st).create kv.indexKey name f ks := by
  apply IndexedTable.ext
  · funext key
    apply live_applyWrites_ne
    intro w hw
    obtain ⟨p, -, rfl⟩ := List.mem_map.1 hw
    exact (kv.k_ne_indexKey key _ _ _).symm
  · funext name'
    have hupdate := Function.update_apply (kv.table st).index name (some f) name'
    exact (Dict.get_set _ _ _ _).trans hupdate.symm
  · ext full
    have hsets : ∀ w ∈ l.map (fun p => LocalWrite.set (kv.indexKey name (f p.2) p.1)
        (KvValue.true : KvValue α)), w.live.isSome = true := by
      intro w hw
      obtain ⟨p, -, rfl⟩ := List.mem_map.1 hw
      rfl
    have hcontains := contains_applyWrites_set st clock hsets full
    constructor
    · rintro ⟨hmem, hfull⟩
      cases hcontains.1 hmem with
      | inl hst => exact .inl ⟨hst, hfull⟩
      | inr hw =>
        obtain ⟨w, hw, he⟩ := hw
        obtain ⟨⟨key, v⟩, hp, rfl⟩ := List.mem_map.1 hw
        obtain ⟨hv, hk⟩ := (hl key v).1 hp
        exact .inr ⟨key, hk, v, hv, he.symm⟩
    · rintro (⟨hst, hfull⟩ | ⟨key, hk, v, hv, he⟩)
      · exact ⟨hcontains.2 (.inl hst), hfull⟩
      · have hp := (hl key v).2 ⟨hv, hk⟩
        exact ⟨hcontains.2 (.inr ⟨_, List.mem_map_of_mem hp, he.symm⟩), name, f v, key, he⟩

end

end KVStore

end Suprime
