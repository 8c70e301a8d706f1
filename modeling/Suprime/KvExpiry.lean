import Suprime.KvQuorum

namespace Suprime
set_option autoImplicit true

variable {ν α : Type} [LinearOrder ν] [DecidableEq α]

/-- The entry that a local write makes. -/
def LocalWrite.Makes (x : Entry ℚ ν (KvValue α)) : LocalWrite α → Prop
  | .set _ value => x.value = value ∧ x.deleted = false
  | .delete _ => x.deleted = true

namespace DistributedStore

section
omit [LinearOrder ν] [DecidableEq α]

theorem mem_applyWrite {st : NodeStore ν α} {w : LocalWrite α}
    (h : p ∈ (st.applyWrite clock w).2) : w.key = p.1 ∧ w.Makes p.2 := by
  cases w with
  | set key value =>
    have hp := List.mem_singleton.1 h
    subst hp
    exact ⟨rfl, rfl, rfl⟩
  | delete key =>
    cases hk : st.data.get key with
    | none =>
      simp only [applyWrite, delete_of_none hk] at h
      cases h
    | some c =>
      simp only [applyWrite, delete_of_some hk] at h
      have hp := List.mem_singleton.1 h
      subst hp
      exact ⟨rfl, rfl⟩

theorem mem_applyWrites {st : NodeStore ν α} {ws : List (LocalWrite α)}
    (h : p ∈ (st.applyWrites clock ws).2) : ∃ w ∈ ws, w.key = p.1 ∧ w.Makes p.2 := by
  induction ws generalizing st clock with
  | nil => cases h
  | cons w ws ih =>
    rcases List.mem_append.1 h with h | h
    · obtain ⟨hk, hm⟩ := mem_applyWrite h
      exact ⟨w, List.mem_cons_self, hk, hm⟩
    · obtain ⟨w', hw', hk, hm⟩ := ih h
      exact ⟨w', List.mem_cons_of_mem _ hw', hk, hm⟩

theorem mem_applyWrites_append {st : NodeStore ν α} {ws ws' : List (LocalWrite α)} :
    p ∈ (st.applyWrites clock (ws ++ ws')).2 ↔
      p ∈ (st.applyWrites clock ws).2 ∨
        p ∈ ((st.applyWrites clock ws).1.applyWrites (fun i => clock (i + ws.length)) ws').2 := by
  rw [applyWrites_append]
  exact List.mem_append

theorem get_applyWrite {st : NodeStore ν α} {w : LocalWrite α}
    (h : (st.applyWrite clock w).1.data.get key = some x) :
    st.data.get key = some x ∨ (w.key = key ∧ w.Makes x) := by
  cases w with
  | set key' value =>
    by_cases hk : key = key'
    · subst hk
      simp only [applyWrite, set, nextVersion, Dict.get_set_self, Option.some.injEq] at h
      subst h
      exact .inr ⟨rfl, rfl, rfl⟩
    · have hne : (LocalWrite.set key' value).key ≠ key := Ne.symm hk
      rw [get_applyWrite_ne _ hne] at h
      exact .inl h
  | delete key' =>
    by_cases hk : key = key'
    · subst hk
      cases hc : st.data.get key with
      | none =>
        simp only [applyWrite, delete_of_none hc] at h
        exact .inl (hc.symm.trans h)
      | some c =>
        simp only [applyWrite, delete_of_some hc, get_putLocal, if_true, Option.some.injEq] at h
        subst h
        exact .inr ⟨rfl, rfl⟩
    · have hne : (LocalWrite.delete key' : LocalWrite α).key ≠ key := Ne.symm hk
      rw [get_applyWrite_ne _ hne] at h
      exact .inl h

theorem delete_makes_tombstone {st : NodeStore ν α} (h : st.data.get key = some x)
    (clock : ℕ → ℚ) :
    ∃ y, (key, y) ∈ (st.applyWrites clock [.delete key]).2 ∧ y.deleted = true := by
  dsimp only [applyWrites, applyWrite]
  rw [delete_of_some h]
  exact ⟨_, List.mem_cons_self, rfl⟩

theorem get_applyWrites {st : NodeStore ν α} {ws : List (LocalWrite α)}
    (h : (st.applyWrites clock ws).1.data.get key = some x) :
    st.data.get key = some x ∨ ∃ w ∈ ws, w.key = key ∧ w.Makes x := by
  induction ws generalizing st clock with
  | nil => exact .inl h
  | cons w ws ih =>
    rcases ih h with h | ⟨w', hw', hk, hm⟩
    · rcases get_applyWrite h with h | ⟨hk, hm⟩
      · exact .inl h
      · exact .inr ⟨w, List.mem_cons_self, hk, hm⟩
    · exact .inr ⟨w', List.mem_cons_of_mem _ hw', hk, hm⟩

end

end DistributedStore

namespace KVStore

section
omit [LinearOrder ν] [DecidableEq α]

theorem k_inj (kv : KVStore ν α) (h : kv.k key = kv.k key') : key = key' :=
  List.append_cancel_left h

theorem expKey_inj (kv : KVStore ν α) (h : kv.expKey key = kv.expKey key') : key = key' :=
  List.append_cancel_left h

theorem k_eq {kv db : KVStore ν α} (h : kv.base = db.base) (key : Str) : kv.k key = db.k key := by
  simp only [k, ns, h]

theorem expKey_eq {kv db : KVStore ν α} (h : kv.base = db.base) (key : Str) :
    kv.expKey key = db.expKey key := by
  simp only [expKey, expNs, h]

theorem isExpired_eq {kv db : KVStore ν α} (h : kv.base = db.base) (st : NodeStore ν α)
    (key : Str) (now : ℚ) : kv.isExpired st key now = db.isExpired st key now := by
  simp only [isExpired, expKey_eq h]

end

/-- The keys that the database keeps for one of its own: the value, the expiry and the index
entries. -/
def Owns (kv : KVStore ν α) (key full : Str) : Prop :=
  full = kv.k key ∨ full = kv.expKey key ∨ ∃ name i, full = kv.indexKey name i key

section
omit [LinearOrder ν] [DecidableEq α]

theorem Owns.eq_of_k {kv : KVStore ν α} (h : kv.Owns key (kv.k key')) : key' = key := by
  rcases h with h | h | ⟨name, i, h⟩
  · exact kv.k_inj h
  · exact absurd h (kv.k_ne_expKey _ _)
  · exact absurd h (kv.k_ne_indexKey _ _ _ _)

theorem Owns.eq_of_expKey {kv : KVStore ν α} (h : kv.Owns key (kv.expKey key')) : key' = key := by
  rcases h with h | h | ⟨name, i, h⟩
  · exact absurd h.symm (kv.k_ne_expKey _ _)
  · exact kv.expKey_inj h
  · exact absurd h (kv.expKey_ne_indexKey _ _ _ _)

end

section
omit [LinearOrder ν]

theorem mem_reindex_none {kv : KVStore ν α} {w : LocalWrite α}
    (h : w ∈ kv.reindex key oldValue .none) : w = .delete w.key := by
  obtain ⟨p, _, hw⟩ := List.mem_flatMap.1 h
  rcases List.mem_append.1 hw with hw | hw
  · split at hw
    · cases hw
    · rw [List.mem_singleton] at hw
      subst hw
      rfl
  · rw [if_pos rfl] at hw
    cases hw

theorem mem_delete {kv : KVStore ν α} {w : LocalWrite α} (h : w ∈ kv.delete st key clock) :
    w = .delete w.key ∧ kv.Owns key w.key := by
  unfold delete at h
  dsimp only at h
  rcases List.mem_append.1 h with h | h
  · rcases List.mem_append.1 h with h | h
    · obtain ⟨name, i, hk⟩ := mem_reindex h
      exact ⟨mem_reindex_none h, .inr (.inr ⟨name, i, hk⟩)⟩
    · rw [List.mem_singleton] at h
      subst h
      exact ⟨rfl, .inl rfl⟩
  · split at h
    · rw [List.mem_singleton] at h
      subst h
      exact ⟨rfl, .inr (.inl rfl)⟩
    · cases h

theorem mem_get {kv : KVStore ν α} {w : LocalWrite α} (h : w ∈ kv.get st key now clock) :
    w = .delete w.key ∧ kv.Owns key w.key := by
  unfold get at h
  split at h
  · exact mem_delete h
  · cases h

theorem get_reindex_k (kv : KVStore ν α) (st : NodeStore ν α) (clock : ℕ → ℚ) (key : Str)
    (oldValue newValue : KvValue α) :
    (st.applyWrites clock (kv.reindex key oldValue newValue)).1.data.get (kv.k key) =
      st.data.get (kv.k key) := by
  apply DistributedStore.get_applyWrites_ne
  intro w hw he
  obtain ⟨name, i, hk⟩ := mem_reindex hw
  exact kv.k_ne_indexKey key name i key (he.symm.trans hk)

theorem delete_commits (kv : KVStore ν α) {st : NodeStore ν α} (clock : ℕ → ℚ)
    (h : st.data.get (kv.k key) = some x) :
    ∃ y, (kv.k key, y) ∈ (st.applyWrites clock (kv.delete st key clock)).2 ∧
      y.deleted = true := by
  have hheld := (kv.get_reindex_k st clock key (st.get (kv.k key) .none) .none).trans h
  obtain ⟨y, hy, hd⟩ := DistributedStore.delete_makes_tombstone hheld
    (fun i => clock (i + (kv.reindex key (st.get (kv.k key) .none) .none).length))
  exact ⟨y, DistributedStore.mem_applyWrites_append.2 (.inl
    (DistributedStore.mem_applyWrites_append.2 (.inr hy))), hd⟩

theorem delete_commits_none (kv : KVStore ν α) {st : NodeStore ν α} (clock : ℕ → ℚ)
    (h : st.data.get (kv.k key) = none) :
    ∀ p ∈ (st.applyWrites clock (kv.delete st key clock)).2, p.1 ≠ kv.k key := by
  have hheld := (kv.get_reindex_k st clock key (st.get (kv.k key) .none) .none).trans h
  intro p hp
  rcases DistributedStore.mem_applyWrites_append.1 hp with hp | hp
  · rcases DistributedStore.mem_applyWrites_append.1 hp with hp | hp
    · obtain ⟨w, hw, hk, _⟩ := DistributedStore.mem_applyWrites hp
      obtain ⟨name, i, hi⟩ := mem_reindex hw
      rw [← hk, hi]
      exact (kv.k_ne_indexKey key name i key).symm
    · dsimp only [DistributedStore.applyWrites, DistributedStore.applyWrite] at hp
      rw [DistributedStore.delete_of_none hheld] at hp
      cases hp
  · obtain ⟨w, hw, hk, _⟩ := DistributedStore.mem_applyWrites hp
    split at hw
    · rw [List.mem_singleton] at hw
      subst hw
      rw [← hk]
      exact (kv.k_ne_expKey key key).symm
    · cases hw

theorem get_delete_ne (kv : KVStore ν α) (st : NodeStore ν α) (clock : ℕ → ℚ)
    (h : ¬ kv.Owns key full) :
    (st.applyWrites clock (kv.delete st key clock)).1.data.get full = st.data.get full := by
  apply DistributedStore.get_applyWrites_ne
  intro w hw he
  rw [← he] at h
  exact h (mem_delete hw).2

theorem mem_deleteAll {kv : KVStore ν α} {w : LocalWrite α}
    (h : w ∈ kv.deleteAll st clock keys) :
    w = .delete w.key ∧ ∃ key ∈ keys, kv.Owns key w.key := by
  induction keys generalizing st clock with
  | nil => cases h
  | cons key keys ih =>
    rcases List.mem_append.1 h with h | h
    · obtain ⟨hd, hk⟩ := mem_delete h
      exact ⟨hd, key, List.mem_cons_self, hk⟩
    · obtain ⟨hd, key', hkey', hk⟩ := ih h
      exact ⟨hd, key', List.mem_cons_of_mem _ hkey', hk⟩

theorem deleteAll_commits (kv : KVStore ν α) {st : NodeStore ν α} {clock : ℕ → ℚ}
    (hmem : key ∈ keys) (h : st.data.get (kv.k key) = some x) :
    ∃ y, (kv.k key, y) ∈ (st.applyWrites clock (kv.deleteAll st clock keys)).2 ∧
      y.deleted = true := by
  induction keys generalizing st clock with
  | nil => cases hmem
  | cons key' keys ih =>
    by_cases hk : key = key'
    · subst hk
      obtain ⟨y, hy, hd⟩ := kv.delete_commits clock h
      exact ⟨y, DistributedStore.mem_applyWrites_append.2 (.inl hy), hd⟩
    · have hno : ¬ kv.Owns key' (kv.k key) := fun ho => hk ho.eq_of_k
      have hrest : key ∈ keys := by
        rcases List.mem_cons.1 hmem with he | hmem
        · exact absurd he hk
        · exact hmem
      rw [← kv.get_delete_ne st clock hno] at h
      obtain ⟨y, hy, hd⟩ := ih hrest h
      exact ⟨y, DistributedStore.mem_applyWrites_append.2 (.inr hy), hd⟩

end

section
omit [LinearOrder ν] [DecidableEq α]

theorem mem_items {st : NodeStore ν α} :
    (∃ v, (full, v) ∈ st.items) ↔ st.contains full = true := by
  rw [DistributedStore.contains_eq_live, Option.isSome_iff_exists]
  exact exists_congr (fun v => DistributedStore.mem_items_iff)

theorem mem_expired {kv : KVStore ν α} {st : NodeStore ν α} :
    key ∈ kv.expired st now ↔
      st.contains (kv.k key) = true ∧ kv.isExpired st key now = true := by
  unfold expired shortKeys
  rw [← mem_items]
  constructor
  · intro h
    obtain ⟨p, hp, rfl⟩ := List.mem_map.1 h
    obtain ⟨hp, hexp⟩ := List.mem_filter.1 hp
    obtain ⟨q, hq, rfl⟩ := List.mem_map.1 hp
    obtain ⟨hq, hpre⟩ := List.mem_filter.1 hq
    obtain ⟨rest, hrest⟩ := List.isPrefixOf_iff_prefix.1 hpre
    refine ⟨⟨q.2, ?_⟩, hexp⟩
    rw [k, ← hrest, List.drop_left, hrest]
    exact hq
  · rintro ⟨⟨v, hv⟩, hexp⟩
    refine List.mem_map.2 ⟨(key, v), List.mem_filter.2 ⟨?_, hexp⟩, rfl⟩
    refine List.mem_map.2 ⟨(kv.k key, v), List.mem_filter.2 ⟨hv, ?_⟩, ?_⟩
    · exact List.isPrefixOf_iff_prefix.2 ⟨key, rfl⟩
    · rw [k, List.drop_left]

end

section
omit [LinearOrder ν]

theorem mem_reindex_set {kv : KVStore ν α} {w : LocalWrite α}
    (h : w ∈ kv.reindex key oldValue newValue ++ [.set (kv.k key) newValue]) :
    kv.Owns key w.key ∧ w.key ≠ kv.expKey key := by
  rcases List.mem_append.1 h with h | h
  · obtain ⟨name, i, hk⟩ := mem_reindex h
    refine ⟨.inr (.inr ⟨name, i, hk⟩), ?_⟩
    rw [hk]
    exact (kv.expKey_ne_indexKey key name i key).symm
  · rw [List.mem_singleton] at h
    subst h
    exact ⟨.inl rfl, kv.k_ne_expKey key key⟩

theorem mem_quorumPutWrites {kv : KVStore ν α} {w : LocalWrite α}
    (h : w ∈ kv.quorumPutWrites st key value ttl now) :
    kv.Owns key w.key ∧ (w.key = kv.expKey key → w = .delete (kv.expKey key) ∨
      ∃ t, ttl = some t ∧ w = .set (kv.expKey key) (.time (now + t))) := by
  rcases List.mem_append.1 h with h | h
  · obtain ⟨ho, hne⟩ := mem_reindex_set h
    exact ⟨ho, fun he => absurd he hne⟩
  · cases ttl with
    | some t =>
      rw [List.mem_singleton] at h
      subst h
      exact ⟨.inr (.inl rfl), fun _ => .inr ⟨t, rfl, rfl⟩⟩
    | none => cases h

theorem mem_put {kv : KVStore ν α} {w : LocalWrite α}
    (h : w ∈ kv.put st key value ttl now clock) :
    kv.Owns key w.key ∧ (w.key = kv.expKey key → w = .delete (kv.expKey key) ∨
      ∃ t, ttl = some t ∧ w = .set (kv.expKey key) (.time (now + t))) := by
  rcases List.mem_append.1 h with hw | hw
  · exact mem_quorumPutWrites (List.mem_append_left _ hw)
  · cases ttl with
    | some t => exact mem_quorumPutWrites h
    | none =>
      dsimp only at hw
      split at hw
      · rw [List.mem_singleton] at hw
        subst hw
        exact ⟨.inr (.inl rfl), fun _ => .inl rfl⟩
      · cases hw

end

end KVStore

namespace KvNode

section
omit [DecidableEq α]

theorem base_onMessage {nd : KvNode ν α} {kv kv' : KVStore ν α} (hkv : nd.kvs[j]? = some kv)
    (h : kv' ∈ (nd.onMessage n j kv msg).1.kvs) : ∃ kv₀ ∈ nd.kvs, kv'.base = kv₀.base := by
  have hset : ∀ q p, kv' ∈ (nd.setPending j kv q p).kvs → ∃ kv₀ ∈ nd.kvs, kv'.base = kv₀.base := by
    intro q p hmem
    rcases List.mem_or_eq_of_mem_set hmem with hmem | rfl
    · exact ⟨kv', hmem, rfl⟩
    · exact ⟨kv, List.mem_of_getElem? hkv, rfl⟩
  unfold onMessage at h
  cases hb : msg.body with
  | WRITE_REQ q full e =>
    rw [hb] at h
    exact ⟨kv', h, rfl⟩
  | READ_REQ q full =>
    rw [hb] at h
    exact ⟨kv', h, rfl⟩
  | WRITE_RESP q =>
    rw [hb] at h
    dsimp only at h
    split at h
    · exact hset _ _ h
    · exact ⟨kv', h, rfl⟩
  | READ_RESP q y =>
    rw [hb] at h
    dsimp only at h
    split at h
    · exact hset _ _ h
    · exact ⟨kv', h, rfl⟩

theorem store_onMessage_cases (nd : KvNode ν α) (n : ν) (j : ℕ) (kv : KVStore ν α)
    (msg : KvMessage ν α) :
    (nd.onMessage n j kv msg).1.store = nd.store ∨
      ∃ q full e, msg.body = .WRITE_REQ q full e ∧
        (nd.onMessage n j kv msg).1.store =
          (nd.store.mergeEntry full (Entry.fromDict e)).store := by
  unfold onMessage
  cases msg.body with
  | WRITE_REQ q full e => exact .inr ⟨q, full, e, rfl, rfl⟩
  | READ_REQ q full => exact .inl rfl
  | WRITE_RESP q =>
    dsimp only
    split <;> exact .inl rfl
  | READ_RESP q y =>
    dsimp only
    split <;> exact .inl rfl

end

end KvNode

/-- A value written to a key of the database, with the time and the ttl it was given. -/
structure KvPut (ν α : Type) where
  key : Str
  time : ℚ
  ttl : Option ℚ
  entry : Entry ℚ ν (KvValue α)
  deriving DecidableEq

/-- The value has not expired at time `now`. -/
def KvPut.LiveAt (p : KvPut ν α) (now : ℚ) : Prop :=
  ∀ t, p.ttl = some t → now < p.time + t

namespace KvSwarm

def putOf (s : KvSwarm ν α) : KvAction ν α → Option (KvPut ν α)
  | .put n j key value ttl now clock => (s.node n).kvs[j]?.map (fun kv =>
      ⟨key, now, ttl, kv.quorumPutEntry (s.node n).store key value clock⟩)
  | .quorumPut n j key value _ ttl _ now clock => (s.node n).kvs[j]?.map (fun kv =>
      ⟨key, now, ttl, kv.quorumPutEntry (s.node n).store key value clock⟩)
  | _ => none

def putsOf (past : List (KvSwarm ν α × KvAction ν α)) : List (KvPut ν α) :=
  past.filterMap (fun x => x.1.putOf x.2)

/-- The entry is a tombstone or the expiry that one of the writes gave to the key. -/
def SetBy (puts : List (KvPut ν α)) (key : Str) (x : Entry ℚ ν (KvValue α)) : Prop :=
  x.deleted = true ∨
    ∃ p ∈ puts, p.key = key ∧ ∃ t, p.ttl = some t ∧ x.value = .time (p.time + t)

section
omit [LinearOrder ν] [DecidableEq α]

theorem SetBy.mono {puts puts' : List (KvPut ν α)} (h : SetBy puts key x)
    (hsub : puts ⊆ puts') : SetBy puts' key x := by
  rcases h with h | ⟨p, hp, hrest⟩
  · exact .inl h
  · exact .inr ⟨p, hsub hp, hrest⟩

end

/-- All of the swarm is one database, and every expiry in it was set by a write of its key. -/
structure Sourced (db : KVStore ν α) (puts : List (KvPut ν α)) (s : KvSwarm ν α) : Prop where
  bases : ∀ n, ∀ kv ∈ (s.node n).kvs, kv.base = db.base
  calls : ∀ n, ∀ c ∈ (s.node n).calls, ∃ key, c.key = db.k key
  requests : ∀ msg ∈ s.sent, ∀ q full e, msg.body = .WRITE_REQ q full e → ∃ key, full = db.k key
  stores : ∀ n key x, (s.node n).store.data.get (db.expKey key) = some x → SetBy puts key x
  digests : ∀ d ∈ s.digests, ∀ key y, d.get (db.expKey key) = some y →
    SetBy puts key (Entry.fromDict y)

section
omit [LinearOrder ν] [DecidableEq α]

theorem Sourced.mono {s : KvSwarm ν α} (h : Sourced db puts s) (hsub : puts ⊆ puts') :
    Sourced db puts' s where
  bases := h.bases
  calls := h.calls
  requests := h.requests
  stores n key x hx := (h.stores n key x hx).mono hsub
  digests d hd key y hy := (h.digests d hd key y hy).mono hsub

end

section
omit [DecidableEq α]

theorem Sourced.setNode {s : KvSwarm ν α} {nd : KvNode ν α} (h : Sourced db puts s)
    (hkvs : ∀ kv ∈ nd.kvs, kv.base = db.base) (hcalls : ∀ c ∈ nd.calls, ∃ key, c.key = db.k key)
    (hst : ∀ key x, nd.store.data.get (db.expKey key) = some x → SetBy puts key x) (n : ν) :
    Sourced db puts (s.setNode n nd) where
  bases m := by
    by_cases hm : m = n
    · subst hm
      simpa [KvSwarm.setNode] using hkvs
    · simpa [KvSwarm.setNode, hm] using h.bases m
  calls m := by
    by_cases hm : m = n
    · subst hm
      simpa [KvSwarm.setNode] using hcalls
    · simpa [KvSwarm.setNode, hm] using h.calls m
  requests := h.requests
  stores m := by
    by_cases hm : m = n
    · subst hm
      simpa [KvSwarm.setNode] using hst
    · simpa [KvSwarm.setNode, hm] using h.stores m
  digests := h.digests

theorem Sourced.write {s : KvSwarm ν α} {ws : List (LocalWrite α)} (h : Sourced db puts s)
    (hws : ∀ w ∈ ws, ∀ key x, w.key = db.expKey key → w.Makes x → SetBy puts key x)
    (n : ν) (clock : ℕ → ℚ) : Sourced db puts (s.write n ws clock) := by
  have hset : Sourced db puts (s.setNode n { s.node n with
      store := ((s.node n).store.applyWrites clock ws).1 }) := by
    apply h.setNode
    · exact h.bases n
    · exact h.calls n
    · intro key x hx
      rcases DistributedStore.get_applyWrites hx with hx | ⟨w, hw, hk, hm⟩
      · exact h.stores n key x hx
      · exact hws w hw key x hk hm
  exact ⟨hset.bases, hset.calls, hset.requests, hset.stores, hset.digests⟩

theorem Sourced.get_merge {s : KvSwarm ν α} {l : List (Str × Entry ℚ ν (KvValue α))}
    (h : Sourced db puts s) (hl : ∀ key x, (db.expKey key, x) ∈ l → SetBy puts key x)
    (hx : ((s.node n).store.merge l).store.data.get (db.expKey key) = some x) :
    SetBy puts key x := by
  rcases DistributedStore.get_merge_mem hx with hx | hx
  · exact h.stores n key x hx
  · exact hl key x hx

theorem Sourced.call {s : KvSwarm ν α} {kv : KVStore ν α} (h : Sourced db puts s)
    (hkv : kv.base = db.base) {k : Str} (hkey : c.key = kv.k k) (n : ν) (p : Pending ν α) :
    Sourced db puts (s.call n kv c p) := by
  apply h.setNode
  · intro kv' hkv'
    rcases List.mem_or_eq_of_mem_set hkv' with hkv' | rfl
    · exact h.bases n kv' hkv'
    · exact hkv
  · intro c' hc'
    rcases List.mem_append.1 hc' with hc' | hc'
    · exact h.calls n c' hc'
    · rw [List.mem_singleton] at hc'
      subst hc'
      exact ⟨k, hkey.trans (KVStore.k_eq hkv k)⟩
  · exact h.stores n

end

section
omit [LinearOrder ν] [DecidableEq α]

/-- What a write makes of the expiry of a key, when it deletes it or sets it as `p` says. -/
theorem SetBy.of_makes {kv db : KVStore ν α} {w : LocalWrite α} {p : KvPut ν α}
    (hbase : kv.base = db.base) (hmem : p ∈ puts) (ho : kv.Owns p.key w.key)
    (hw : w.key = kv.expKey p.key → w = .delete (kv.expKey p.key) ∨
      ∃ t, p.ttl = some t ∧ w = .set (kv.expKey p.key) (.time (p.time + t)))
    (hkey : w.key = db.expKey key) (hm : w.Makes x) : SetBy puts key x := by
  rw [← KVStore.expKey_eq hbase] at hkey
  rw [hkey] at ho
  have hk := ho.eq_of_expKey
  subst hk
  rcases hw hkey with rfl | ⟨t, ht, rfl⟩
  · exact .inl hm
  · exact .inr ⟨p, hmem, rfl, t, ht, hm.1⟩

end

section
omit [LinearOrder ν]

theorem putsOf_cons_subset (s : KvSwarm ν α) (a : KvAction ν α)
    (past : List (KvSwarm ν α × KvAction ν α)) : putsOf past ⊆ putsOf ((s, a) :: past) := by
  intro p hp
  unfold putsOf at hp ⊢
  obtain ⟨x, hx, hp⟩ := List.mem_filterMap.1 hp
  exact List.mem_filterMap.2 ⟨x, List.mem_cons_of_mem _ hx, hp⟩

theorem mem_putsOf_cons {s : KvSwarm ν α} (h : s.putOf a = some p) :
    p ∈ putsOf ((s, a) :: past) :=
  List.mem_filterMap.2 ⟨(s, a), List.mem_cons_self, h⟩

end

theorem Sourced.init (db : KVStore ν α) :
    Sourced db (putsOf []) (KvSwarm.init : KvSwarm ν α) where
  bases n kv hkv := by cases hkv
  calls n c hc := by cases hc
  requests msg hm := by cases hm
  stores n key x hx := by cases hx
  digests d hd := by cases hd

section
omit [DecidableEq α]

theorem Sourced.send {s : KvSwarm ν α} {c : KvCall ν α} (h : Sourced db puts s)
    (hc : (s.node n).calls[i]? = some c) :
    Sourced db puts { s.setNode n { s.node n with
        calls := (s.node n).calls.set i { c with targets := ms } } with
      sent := s.sent ++ [request n m c] } := by
  obtain ⟨key, hkey⟩ := h.calls n c (List.mem_of_getElem? hc)
  have hset : Sourced db puts (s.setNode n { s.node n with
      calls := (s.node n).calls.set i { c with targets := ms } }) := by
    apply h.setNode
    · exact h.bases n
    · intro c' hc'
      rcases List.mem_or_eq_of_mem_set hc' with hc' | rfl
      · exact h.calls n c' hc'
      · exact ⟨key, hkey⟩
    · exact h.stores n
  refine ⟨hset.bases, hset.calls, ?_, hset.stores, hset.digests⟩
  intro msg hm q full e hb
  rcases List.mem_append.1 hm with hm | hm
  · exact h.requests msg hm q full e hb
  · rw [List.mem_singleton] at hm
    subst hm
    unfold request at hb
    split at hb
    · cases hb
      exact ⟨key, hkey⟩
    · cases hb

theorem Sourced.finish {s : KvSwarm ν α} {c : KvCall ν α} (h : Sourced db puts s)
    (hc : c ∈ (s.node n).calls) (i : ℕ) : Sourced db puts (s.finish n i c) := by
  obtain ⟨key, hkey⟩ := h.calls n c hc
  have hbases : ∀ kv ∈ ((s.node n).forget i c).kvs, kv.base = db.base := by
    intro kv hkv
    obtain ⟨j, hj⟩ := List.mem_iff_getElem?.1 hkv
    simp only [KvNode.forget, List.getElem?_modify] at hj
    obtain ⟨kv₀, hkv₀, rfl⟩ := Option.map_eq_some_iff.1 hj
    have hbase := h.bases n kv₀ (List.mem_of_getElem? hkv₀)
    split <;> exact hbase
  have hcalls : ∀ c' ∈ ((s.node n).forget i c).calls, ∃ key, c'.key = db.k key :=
    fun c' hc' => h.calls n c' (List.mem_of_mem_eraseIdx hc')
  unfold KvSwarm.finish
  dsimp only
  cases c.wrote with
  | some e =>
    have hset := h.setNode hbases hcalls (h.stores n) n
    exact ⟨hset.bases, hset.calls, hset.requests, hset.stores, hset.digests⟩
  | none =>
    apply h.setNode
    · exact hbases
    · exact hcalls
    · intro key' x hx
      dsimp only at hx
      unfold KvNode.repaired at hx
      split at hx
      · exact h.stores n key' x hx
      · rename_i best _
        apply h.get_merge (l := [(c.key, best)]) ?_ hx
        intro key'' y hy
        rw [List.mem_singleton, Prod.mk.injEq, hkey] at hy
        exact absurd hy.1.symm (db.k_ne_expKey _ _)

theorem Sourced.handle {s : KvSwarm ν α} {kv : KVStore ν α} (h : Sourced db puts s)
    (hmsg : msg ∈ s.sent) (hkv : (s.node n).kvs[j]? = some kv) (t i : ℕ) :
    Sourced db puts (s.handled n t i j kv msg) := by
  obtain ⟨_, hcalls, _, hout⟩ := (s.node n).onMessage_frame n j kv msg
  have hset : Sourced db puts (s.setNode n { ((s.node n).onMessage n j kv msg).1 with
      inbox := ((s.node n).onMessage n j kv msg).1.inbox.set t (i, j + 1) }) := by
    apply h.setNode
    · intro kv' hkv'
      obtain ⟨kv₀, hkv₀, hbase⟩ := KvNode.base_onMessage hkv hkv'
      rw [hbase]
      exact h.bases n kv₀ hkv₀
    · dsimp only
      rw [hcalls]
      exact h.calls n
    · intro key x hx
      dsimp only at hx
      rcases KvNode.store_onMessage_cases (s.node n) n j kv msg with hst | ⟨q, full, e, hb, hst⟩
      · rw [hst] at hx
        exact h.stores n key x hx
      · obtain ⟨key', rfl⟩ := h.requests msg hmsg q full e hb
        rw [hst] at hx
        apply h.get_merge (l := [(db.k key', Entry.fromDict e)]) ?_ hx
        intro key'' y hy
        rw [List.mem_singleton, Prod.mk.injEq] at hy
        exact absurd hy.1.symm (db.k_ne_expKey _ _)
  refine ⟨hset.bases, hset.calls, ?_, hset.stores, hset.digests⟩
  intro m hm q full e hb
  rcases List.mem_append.1 hm with hm | hm
  · exact h.requests m hm q full e hb
  · exact absurd hb ((hout m hm).2 q full e)

end

section
omit [LinearOrder ν] [DecidableEq α]

theorem Sourced.digest {s : KvSwarm ν α} (h : Sourced db puts s) (n : ν) :
    Sourced db puts { s with digests := s.digests ++ [(s.node n).store.digest] } where
  bases := h.bases
  calls := h.calls
  requests := h.requests
  stores := h.stores
  digests d hd key y hy := by
    rcases List.mem_append.1 hd with hd | hd
    · exact h.digests d hd key y hy
    · rw [List.mem_singleton] at hd
      subst hd
      have hmem := List.mem_map_of_mem (f := fun p => (p.1, Entry.fromDict p.2))
        (Dict.mem_items.2 hy)
      change _ ∈ StoreSwarm.pairsOf _ at hmem
      rw [StoreSwarm.pairsOf_digest] at hmem
      exact h.stores n key _ (Dict.mem_items.1 hmem)

end

section
omit [DecidableEq α]

theorem Sourced.create {s : KvSwarm ν α} (h : Sourced db puts s)
    (hbase : KVStore.rstrip nspace = db.base) (n : ν) :
    Sourced db puts
      (s.setNode n { s.node n with kvs := (s.node n).kvs ++ [.init nspace] }) := by
  apply h.setNode
  · intro kv hkv
    rcases List.mem_append.1 hkv with hkv | hkv
    · exact h.bases n kv hkv
    · rw [List.mem_singleton] at hkv
      subst hkv
      exact hbase
  · exact h.calls n
  · exact h.stores n

theorem Sourced.writePut {s : KvSwarm ν α} {kv : KVStore ν α} {ws : List (LocalWrite α)}
    {p : KvPut ν α} (h : Sourced db puts s) (hbase : kv.base = db.base) (hmem : p ∈ puts)
    (hws : ∀ w ∈ ws, kv.Owns p.key w.key ∧ (w.key = kv.expKey p.key →
      w = .delete (kv.expKey p.key) ∨
        ∃ t, p.ttl = some t ∧ w = .set (kv.expKey p.key) (.time (p.time + t))))
    (n : ν) (clock : ℕ → ℚ) : Sourced db puts (s.write n ws clock) := by
  apply h.write
  intro w hw key x hk hm
  obtain ⟨ho, hexp⟩ := hws w hw
  exact SetBy.of_makes hbase hmem ho hexp hk hm

theorem Sourced.writeDeletes {s : KvSwarm ν α} {ws : List (LocalWrite α)} (h : Sourced db puts s)
    (hws : ∀ w ∈ ws, ∃ key, w = .delete key) (n : ν) (clock : ℕ → ℚ) :
    Sourced db puts (s.write n ws clock) := by
  apply h.write
  intro w hw key x hk hm
  obtain ⟨key', rfl⟩ := hws w hw
  exact .inl hm

theorem Sourced.createIndex {s : KvSwarm ν α} {kv : KVStore ν α} (h : Sourced db puts s)
    (hbase : kv.base = db.base) (n : ν) (j : ℕ) (name : Str) (extractor : KvValue α → Str)
    (now : ℚ) (clock : ℕ → ℚ) :
    let kv' : KVStore ν α := { kv with indexes := kv.indexes.set name extractor }
    Sourced db puts ((s.setNode n ((s.node n).setKv j kv')).write n
      (kv'.createIndex (s.node n).store name extractor now) clock) := by
  intro kv'
  apply Sourced.write
  · apply h.setNode
    · intro kv₁ hkv₁
      rcases List.mem_or_eq_of_mem_set hkv₁ with hkv₁ | rfl
      · exact h.bases n kv₁ hkv₁
      · exact hbase
    · exact h.calls n
    · exact h.stores n
  · intro w hw key x hk hm
    obtain ⟨q, _, rfl⟩ := List.mem_map.1 hw
    have hexp : kv'.expKey key = db.expKey key := KVStore.expKey_eq hbase key
    rw [← hexp] at hk
    exact absurd hk.symm (KVStore.expKey_ne_indexKey _ _ _ _ _)

theorem Sourced.deliver {s : KvSwarm ν α} (h : Sourced db puts s) (n : ν) (l : List ℕ) (i : ℕ) :
    Sourced db puts
      ({ s.setNode n { s.node n with seen := l, inbox := (s.node n).inbox ++ [(i, 0)] } with
        delivered := Function.update s.delivered n (s.delivered n ++ [i]) } : KvSwarm ν α) := by
  have hset : Sourced db puts
      (s.setNode n { s.node n with seen := l, inbox := (s.node n).inbox ++ [(i, 0)] }) := by
    apply h.setNode
    · exact h.bases n
    · exact h.calls n
    · exact h.stores n
  exact ⟨hset.bases, hset.calls, hset.requests, hset.stores, hset.digests⟩

theorem Sourced.mergeDigest {s : KvSwarm ν α} {l : List (Str × Entry ℚ ν (KvValue α))}
    (h : Sourced db puts s) (hd : d ∈ s.digests)
    (hl : ∀ p ∈ l, ∃ y, d.get p.1 = some y ∧ p.2 = Entry.fromDict y) (n : ν) :
    Sourced db puts
      (s.setNode n { s.node n with store := ((s.node n).store.merge l).store }) := by
  apply h.setNode
  · exact h.bases n
  · exact h.calls n
  · intro key y hy
    apply h.get_merge ?_ hy
    intro key' z hz
    obtain ⟨x, hx, rfl⟩ := hl _ hz
    exact h.digests d hd key' x hx

end

theorem Sourced.step {s s' : KvSwarm ν α} {db : KVStore ν α} (h : Sourced db (putsOf past) s)
    (hdb : ∀ n nspace, a = .create n nspace → KVStore.rstrip nspace = db.base)
    (hs : s.step a = some s') : Sourced db (putsOf ((s, a) :: past)) s' := by
  have h' := h.mono (putsOf_cons_subset s a past)
  cases a with
  | create n nspace =>
    cases hs
    exact h'.create (hdb n nspace rfl) n
  | put n j key value ttl now clock =>
    obtain ⟨kv, hkv, hs⟩ := Option.bind_eq_some_iff.1 hs
    cases hs
    have hbase := h.bases n kv (List.mem_of_getElem? hkv)
    have hput : s.putOf (.put n j key value ttl now clock) =
        some ⟨key, now, ttl, kv.quorumPutEntry (s.node n).store key value clock⟩ := by
      simp only [putOf, hkv, Option.map_some]
    exact h'.writePut hbase (mem_putsOf_cons hput) (fun w hw => KVStore.mem_put hw) n clock
  | get n j key now clock =>
    obtain ⟨kv, hkv, hs⟩ := Option.bind_eq_some_iff.1 hs
    cases hs
    exact h'.writeDeletes (fun w hw => ⟨_, (KVStore.mem_get hw).1⟩) n clock
  | delete n j key clock =>
    obtain ⟨kv, hkv, hs⟩ := Option.bind_eq_some_iff.1 hs
    cases hs
    exact h'.writeDeletes (fun w hw => ⟨_, (KVStore.mem_delete hw).1⟩) n clock
  | sweepExpired n j now clock =>
    obtain ⟨kv, hkv, hs⟩ := Option.bind_eq_some_iff.1 hs
    cases hs
    exact h'.writeDeletes (fun w hw => ⟨_, (KVStore.mem_deleteAll hw).1⟩) n clock
  | createIndex n j name extractor now clock =>
    obtain ⟨kv, hkv, hs⟩ := Option.bind_eq_some_iff.1 hs
    cases hs
    exact h'.createIndex (h.bases n kv (List.mem_of_getElem? hkv)) n j name extractor now clock
  | quorumPut n j key value w ttl peers now clock =>
    obtain ⟨kv, hkv, hs⟩ := Option.bind_eq_some_iff.1 hs
    split at hs
    · cases hs
      have hbase := h.bases n kv (List.mem_of_getElem? hkv)
      have hput : s.putOf (.quorumPut n j key value w ttl peers now clock) =
          some ⟨key, now, ttl, kv.quorumPutEntry (s.node n).store key value clock⟩ := by
        simp only [putOf, hkv, Option.map_some]
      apply Sourced.call (k := key) _ hbase rfl
      exact h'.writePut hbase (mem_putsOf_cons hput)
        (fun w hw => KVStore.mem_quorumPutWrites hw) n clock
    · cases hs
  | quorumGet n j key r peers =>
    obtain ⟨kv, hkv, hs⟩ := Option.bind_eq_some_iff.1 hs
    split at hs
    · cases hs
      exact h'.call (h.bases n kv (List.mem_of_getElem? hkv)) rfl n _
    · cases hs
  | send n i =>
    obtain ⟨c, hc, hs⟩ := Option.bind_eq_some_iff.1 hs
    split at hs
    · cases hs
    · cases hs
      exact h'.send hc
  | finish n i =>
    obtain ⟨c, hc, hs⟩ := Option.bind_eq_some_iff.1 hs
    split at hs
    · cases hs
      exact h'.finish (List.mem_of_getElem? hc) i
    · cases hs
  | deliver n i =>
    obtain ⟨msg, _, hs⟩ := Option.bind_eq_some_iff.1 hs
    split at hs
    · split at hs
      · cases hs
        exact h'
      · cases hs
        exact h'.deliver n _ i
    · cases hs
  | handle n t =>
    obtain ⟨⟨i, j⟩, _, hs⟩ := Option.bind_eq_some_iff.1 hs
    obtain ⟨msg, hi, hs⟩ := Option.bind_eq_some_iff.1 hs
    obtain ⟨kv, hkv, hs⟩ := Option.bind_eq_some_iff.1 hs
    cases hs
    exact h'.handle (List.mem_of_getElem? hi) hkv t i
  | digest n =>
    cases hs
    exact h'.digest n
  | mergeEntry n i key =>
    obtain ⟨d, hd, hs⟩ := Option.bind_eq_some_iff.1 hs
    obtain ⟨x, hx, hs⟩ := Option.bind_eq_some_iff.1 hs
    cases hs
    apply h'.mergeDigest (l := [(key, Entry.fromDict x)]) (List.mem_of_getElem? hd)
    intro p hp
    rw [List.mem_singleton.1 hp]
    exact ⟨x, hx, rfl⟩
  | applyDigest n i =>
    obtain ⟨d, hd, hs⟩ := Option.bind_eq_some_iff.1 hs
    cases hs
    apply h'.mergeDigest (List.mem_of_getElem? hd)
    intro p hp
    obtain ⟨q, hq, rfl⟩ := List.mem_map.1 hp
    exact ⟨q.2, Dict.mem_items.1 hq, rfl⟩

theorem Sourced.of_run {db : KVStore ν α} (h : Run KvSwarm.step KvSwarm.init past s)
    (hdb : ∀ x ∈ past, ∀ n nspace, x.2 = .create n nspace → KVStore.rstrip nspace = db.base) :
    Sourced db (putsOf past) s := by
  induction h with
  | start => exact Sourced.init db
  | next _ hs ih =>
    have hprev := ih (fun x hx => hdb x (List.mem_cons_of_mem _ hx))
    exact hprev.step (hdb _ List.mem_cons_self) hs

end KvSwarm

/-- The time at which a step reads, as `get` and `sweep_expired` do. -/
def KvAction.readsAt : KvAction ν α → Option ℚ
  | .get _ _ _ now _ => some now
  | .sweepExpired _ _ now _ => some now
  | _ => none

section
omit [LinearOrder ν] [DecidableEq α]

theorem KVStore.isExpired_iff {kv : KVStore ν α} {st : NodeStore ν α} :
    kv.isExpired st key now = true ↔ ∃ x t, st.data.get (kv.expKey key) = some x ∧
      x.deleted = false ∧ x.value = .time t ∧ t ≤ now := by
  unfold KVStore.isExpired DistributedStore.get
  cases hx : st.data.get (kv.expKey key) with
  | none => simp
  | some x =>
    cases hd : x.deleted with
    | true => simp [hd]
    | false => cases hv : x.value <;> simp [hd, hv]

theorem KVStore.getResult_congr {kv : KVStore ν α} {st st' : NodeStore ν α}
    (hk : st'.data.get (kv.k key) = st.data.get (kv.k key))
    (he : st'.data.get (kv.expKey key) = st.data.get (kv.expKey key)) (default : KvValue α) :
    kv.getResult st' key default now = kv.getResult st key default now := by
  have hexp : kv.isExpired st' key now = kv.isExpired st key now := by
    simp only [KVStore.isExpired, DistributedStore.get, he]
  have hget : st'.get (kv.k key) default = st.get (kv.k key) default := by
    simp only [DistributedStore.get, hk]
  rw [KVStore.getResult, KVStore.getResult, hexp, hget]

end

namespace KvSwarm

/-- Node `m` reads the value of `p`, whatever default it is given. -/
def CanRead (db : KVStore ν α) (p : KvPut ν α) (now : ℚ) (s : KvSwarm ν α) (m : ν) : Prop :=
  ∀ default, db.getResult (s.node m).store p.key default now = p.entry.value

/-- A step writes no tombstone for the key of `p` and leaves its value readable where it was. -/
def Keeps (db : KVStore ν α) (s s' : KvSwarm ν α) (p : KvPut ν α) (now : ℚ) : Prop :=
  (∀ x, (db.k p.key, x) ∈ s'.written.drop s.written.length → x.deleted = false) ∧
    ∀ m, CanRead db p now s m → CanRead db p now s' m

/-- A store holds an expiry for the key of `p` that another write set and that has come. -/
def Leftover (db : KVStore ν α) (puts : List (KvPut ν α)) (st : NodeStore ν α) (p : KvPut ν α)
    (now : ℚ) : Prop :=
  ∃ q ∈ puts, q ≠ p ∧ q.key = p.key ∧ ∃ t x, q.ttl = some t ∧ q.time + t ≤ now ∧
    st.data.get (db.expKey p.key) = some x ∧ x.deleted = false ∧ x.value = .time (q.time + t)

/-- `get` or `sweep_expired` meets an entry for the key of `p` together with an expiry that was
left by another write. -/
def Stale (db : KVStore ν α) (puts : List (KvPut ν α)) (s : KvSwarm ν α) (p : KvPut ν α) :
    KvAction ν α → Prop
  | .get n _ key now _ => key = p.key ∧ (∃ x, (s.node n).store.data.get (db.k key) = some x) ∧
      Leftover db puts (s.node n).store p now
  | .sweepExpired n _ now _ => (s.node n).store.contains (db.k p.key) = true ∧
      Leftover db puts (s.node n).store p now
  | _ => False

section
omit [LinearOrder ν] [DecidableEq α]

theorem Sourced.leftover_iff {s : KvSwarm ν α} {db : KVStore ν α} (h : Sourced db puts s)
    (hlive : p.LiveAt now) :
    Leftover db puts (s.node n).store p now ↔
      db.isExpired (s.node n).store p.key now = true := by
  rw [KVStore.isExpired_iff]
  constructor
  · rintro ⟨q, _, _, _, t, x, _, hle, hx, hd, hv⟩
    exact ⟨x, _, hx, hd, hv, hle⟩
  · rintro ⟨x, t, hx, hd, hv, hle⟩
    rcases h.stores n p.key x hx with hdel | ⟨q, hq, hkey, t', ht', hv'⟩
    · rw [hd] at hdel
      cases hdel
    · rw [hv, KvValue.time.injEq] at hv'
      subst hv'
      refine ⟨q, hq, ?_, hkey, t', x, ht', hle, hx, hd, hv⟩
      rintro rfl
      exact absurd (hlive t' ht') (not_lt.2 hle)

end

section
omit [DecidableEq α]

theorem keeps_write {s : KvSwarm ν α} {db : KVStore ν α} {ws : List (LocalWrite α)}
    (hws : ∀ w ∈ ws, w.key ≠ db.k p.key ∧ w.key ≠ db.expKey p.key) (n : ν) (clock : ℕ → ℚ) :
    Keeps db s (s.write n ws clock) p now := by
  constructor
  · intro x hx
    simp only [KvSwarm.write, List.drop_left] at hx
    obtain ⟨w, hw, hk, _⟩ := DistributedStore.mem_applyWrites hx
    exact absurd hk (hws w hw).1
  · intro m hm default
    rw [← hm default]
    by_cases hmn : m = n
    · subst hmn
      simp only [KvSwarm.write, KvSwarm.setNode, Function.update_self]
      apply KVStore.getResult_congr
      · exact DistributedStore.get_applyWrites_ne clock (fun w hw => (hws w hw).1)
      · exact DistributedStore.get_applyWrites_ne clock (fun w hw => (hws w hw).2)
    · simp only [KvSwarm.write, KvSwarm.setNode, Function.update_of_ne hmn]

end

section
omit [LinearOrder ν] [DecidableEq α]

theorem not_canRead_of_expired {s : KvSwarm ν α} {db : KVStore ν α}
    (h : db.isExpired (s.node m).store p.key now = true) : ¬ CanRead db p now s m := by
  intro hread
  have hnone := hread .none
  have htrue := hread .true
  simp only [KVStore.getResult, h, if_true] at hnone htrue
  rw [← htrue] at hnone
  cases hnone

end

section
omit [DecidableEq α]

theorem not_keeps_write {s : KvSwarm ν α} {db : KVStore ν α}
    (h : ∃ y, (db.k p.key, y) ∈ ((s.node n).store.applyWrites clock ws).2 ∧ y.deleted = true) :
    ¬ Keeps db s (s.write n ws clock) p now := by
  intro hk
  obtain ⟨y, hy, hd⟩ := h
  have hlive := hk.1 y (by simpa only [KvSwarm.write, List.drop_left] using hy)
  rw [hd] at hlive
  cases hlive

end

theorem keeps_get_iff {s : KvSwarm ν α} {db kv : KVStore ν α} (h : Sourced db puts s)
    (hbase : kv.base = db.base) (hlive : p.LiveAt now) :
    Keeps db s (s.write n (kv.get (s.node n).store key now clock) clock) p now ↔
      ¬ Stale db puts s p (.get n j key now clock) := by
  have hleft := h.leftover_iff (n := n) hlive
  rw [← KVStore.isExpired_eq hbase] at hleft
  unfold KVStore.get
  cases hexp : kv.isExpired (s.node n).store key now with
  | false =>
    have hkeep : Keeps db s (s.write n [] clock) p now := keeps_write (by simp) n clock
    refine iff_of_true hkeep ?_
    rintro ⟨rfl, _, hl⟩
    rw [hleft.1 hl] at hexp
    cases hexp
  | true =>
    rw [if_pos rfl]
    by_cases hkey : key = p.key
    · subst hkey
      cases hx : (s.node n).store.data.get (kv.k p.key) with
      | none =>
        have hnone : ¬ Stale db puts s p (.get n j p.key now clock) := by
          rintro ⟨_, ⟨x, hx'⟩, _⟩
          rw [← KVStore.k_eq hbase, hx] at hx'
          cases hx'
        refine iff_of_true ⟨?_, ?_⟩ hnone
        · intro x hmem
          simp only [KvSwarm.write, List.drop_left] at hmem
          rw [← KVStore.k_eq hbase] at hmem
          exact absurd rfl (kv.delete_commits_none clock hx _ hmem)
        · intro m hm default
          by_cases hmn : m = n
          · subst hmn
            rw [KVStore.isExpired_eq hbase] at hexp
            exact absurd hm (not_canRead_of_expired hexp)
          · rw [← hm default]
            simp only [KvSwarm.write, KvSwarm.setNode, Function.update_of_ne hmn]
      | some x =>
        have hstale : Stale db puts s p (.get n j p.key now clock) := by
          refine ⟨rfl, ⟨x, ?_⟩, hleft.2 hexp⟩
          rw [← KVStore.k_eq hbase]
          exact hx
        refine iff_of_false (not_keeps_write ?_) (not_not.2 hstale)
        rw [← KVStore.k_eq hbase]
        exact kv.delete_commits clock hx
    · refine iff_of_true (keeps_write ?_ n clock) (fun hst => hkey hst.1)
      intro w hw
      obtain ⟨_, ho⟩ := KVStore.mem_delete hw
      rw [← KVStore.k_eq hbase, ← KVStore.expKey_eq hbase]
      constructor
      · intro he
        rw [he] at ho
        exact hkey ho.eq_of_k.symm
      · intro he
        rw [he] at ho
        exact hkey ho.eq_of_expKey.symm

theorem keeps_sweepExpired_iff {s : KvSwarm ν α} {db kv : KVStore ν α} (h : Sourced db puts s)
    (hbase : kv.base = db.base) (hlive : p.LiveAt now) :
    Keeps db s (s.write n (kv.sweepExpired (s.node n).store now clock) clock) p now ↔
      ¬ Stale db puts s p (.sweepExpired n j now clock) := by
  have hleft := h.leftover_iff (n := n) hlive
  rw [← KVStore.isExpired_eq hbase] at hleft
  have hstale : Stale db puts s p (.sweepExpired n j now clock) ↔
      p.key ∈ kv.expired (s.node n).store now := by
    rw [KVStore.mem_expired, KVStore.k_eq hbase, ← hleft]
    rfl
  rw [hstale]
  unfold KVStore.sweepExpired
  by_cases hmem : p.key ∈ kv.expired (s.node n).store now
  · refine iff_of_false (not_keeps_write ?_) (not_not.2 hmem)
    obtain ⟨hcon, _⟩ := KVStore.mem_expired.1 hmem
    unfold DistributedStore.contains at hcon
    cases hx : (s.node n).store.data.get (kv.k p.key) with
    | none =>
      rw [hx] at hcon
      cases hcon
    | some x =>
      rw [← KVStore.k_eq hbase]
      exact kv.deleteAll_commits hmem hx
  · refine iff_of_true (keeps_write ?_ n clock) hmem
    intro w hw
    obtain ⟨_, key, hkey, ho⟩ := KVStore.mem_deleteAll hw
    rw [← KVStore.k_eq hbase, ← KVStore.expKey_eq hbase]
    constructor
    · intro he
      rw [he] at ho
      rw [ho.eq_of_k] at hmem
      exact hmem hkey
    · intro he
      rw [he] at ho
      rw [ho.eq_of_expKey] at hmem
      exact hmem hkey

theorem keeps_step_iff {s s' : KvSwarm ν α} {db : KVStore ν α} (h : Sourced db puts s)
    (hs : s.step a = some s') (hread : a.readsAt = some now) (hlive : p.LiveAt now) :
    Keeps db s s' p now ↔ ¬ Stale db puts s p a := by
  cases a with
  | get n j key now' clock =>
    obtain ⟨kv, hkv, hs⟩ := Option.bind_eq_some_iff.1 hs
    cases hs
    cases hread
    exact keeps_get_iff h (h.bases n kv (List.mem_of_getElem? hkv)) hlive
  | sweepExpired n j now' clock =>
    obtain ⟨kv, hkv, hs⟩ := Option.bind_eq_some_iff.1 hs
    cases hs
    cases hread
    exact keeps_sweepExpired_iff h (h.bases n kv (List.mem_of_getElem? hkv)) hlive
  | create n nspace => cases hread
  | put n j key value ttl now clock => cases hread
  | delete n j key clock => cases hread
  | createIndex n j name extractor now clock => cases hread
  | quorumPut n j key value w ttl peers now clock => cases hread
  | quorumGet n j key r peers => cases hread
  | send n i => cases hread
  | finish n i => cases hread
  | deliver n i => cases hread
  | handle n t => cases hread
  | digest n => cases hread
  | mergeEntry n i key => cases hread
  | applyDigest n i => cases hread

/-- `p` has the greatest version among the values written to its key. -/
def NewestPut (puts : List (KvPut ν α)) (p : KvPut ν α) : Prop :=
  IsNewest (fun q => q.entry.version) {q | q ∈ puts ∧ q.key = p.key} (some p)

end KvSwarm

/-- In every run of a swarm that is one database, the reads of `get` and `sweep_expired` all keep
the live newest values exactly when none of them meets an expiry that was left by another write of
the key. -/
theorem reads_keep_live_values_iff {db : KVStore ν α} {s : KvSwarm ν α}
    (h : Run KvSwarm.step KvSwarm.init past s)
    (hdb : ∀ x ∈ past, ∀ n nspace, x.2 = .create n nspace → KVStore.rstrip nspace = db.base) :
    (∀ post t a pre t' now p, past = post ++ (t, a) :: pre → t.step a = some t' →
      a.readsAt = some now → KvSwarm.NewestPut (KvSwarm.putsOf pre) p → p.LiveAt now →
        KvSwarm.Keeps db t t' p now) ↔
    ∀ post t a pre now p, past = post ++ (t, a) :: pre →
      a.readsAt = some now → KvSwarm.NewestPut (KvSwarm.putsOf pre) p → p.LiveAt now →
        ¬ KvSwarm.Stale db (KvSwarm.putsOf pre) t p a := by
  have hsrc : ∀ post t a pre, past = post ++ (t, a) :: pre →
      KvSwarm.Sourced db (KvSwarm.putsOf pre) t ∧ ∃ t', t.step a = some t' := by
    intro post t a pre hpast
    subst hpast
    obtain ⟨t', hpre, ht, _⟩ := h.split
    refine ⟨KvSwarm.Sourced.of_run hpre ?_, t', ht⟩
    intro x hx
    exact hdb x (List.mem_append_right _ (List.mem_cons_of_mem _ hx))
  constructor
  · intro hkeep post t a pre now p hpast hread hnew hlive
    obtain ⟨hs, t', ht⟩ := hsrc post t a pre hpast
    have hk := hkeep post t a pre t' now p hpast ht hread hnew hlive
    exact (KvSwarm.keeps_step_iff hs ht hread hlive).1 hk
  · intro hstale post t a pre t' now p hpast ht hread hnew hlive
    obtain ⟨hs, _⟩ := hsrc post t a pre hpast
    have hno := hstale post t a pre now p hpast hread hnew hlive
    exact (KvSwarm.keeps_step_iff hs ht hread hlive).2 hno

/-- One node gives `x` an expiry at time 11 and then takes one more step. -/
def expiringAt11 (a : KvAction (Fin 1) ℕ) : List (KvAction (Fin 1) ℕ) :=
  [.create 0 ['k', 'v', '/'], .put 0 0 ['x'] (.data 1) (some 10) 1 (fun _ => 1), a]

/-- The step creates no other database than `kv/`. -/
def createsKv : KvAction (Fin 1) ℕ → Bool
  | .create _ nspace => KVStore.rstrip nspace = ['k', 'v']
  | _ => true

def readsNoneExpired (s : KvSwarm (Fin 1) ℕ) : KvAction (Fin 1) ℕ → Bool
  | .get n _ key now _ =>
    !(KVStore.init ['k', 'v', '/'] : KVStore (Fin 1) ℕ).isExpired (s.node n).store key now
  | .sweepExpired _ _ _ _ => false
  | _ => true

theorem reads_keep_live_values_before_expiry :
    ∃ past, ∃ s : KvSwarm (Fin 1) ℕ, Run KvSwarm.step KvSwarm.init past s ∧
      past.length = 3 ∧ ∀ post t a pre t' now p, past = post ++ (t, a) :: pre →
        t.step a = some t' → a.readsAt = some now →
        KvSwarm.NewestPut (KvSwarm.putsOf pre) p → p.LiveAt now →
          KvSwarm.Keeps (.init ['k', 'v', '/']) t t' p now := by
  have hsome : (exec KvSwarm.step (KvSwarm.init : KvSwarm (Fin 1) ℕ)
      (expiringAt11 (.get 0 0 ['x'] 5 (fun _ => 5)))).isSome = true := by decide
  have hpast : (execPast KvSwarm.step (KvSwarm.init : KvSwarm (Fin 1) ℕ) []
      (expiringAt11 (.get 0 0 ['x'] 5 (fun _ => 5)))).length = 3 ∧
      ∀ x ∈ execPast KvSwarm.step (KvSwarm.init : KvSwarm (Fin 1) ℕ) []
        (expiringAt11 (.get 0 0 ['x'] 5 (fun _ => 5))),
      createsKv x.2 = true ∧ readsNoneExpired x.1 x.2 = true := by decide +kernel
  obtain ⟨s, hs⟩ := Option.isSome_iff_exists.1 hsome
  have hrun := Run.start.exec hs
  refine ⟨_, s, hrun, hpast.1, ?_⟩
  apply (reads_keep_live_values_iff hrun ?_).2
  · intro post t a pre now p hsplit hread hnew hlive hstale
    have hmem := (hpast.2 (t, a) (by rw [hsplit]; simp)).2
    cases a with
    | get n j key now' clock =>
      obtain ⟨rfl, _, q, _, _, _, d, x, _, hle, hx, hdel, hv⟩ := hstale
      have hexp : (KVStore.init ['k', 'v', '/'] : KVStore (Fin 1) ℕ).isExpired
          (t.node n).store p.key now' = true :=
        KVStore.isExpired_iff.2 ⟨x, _, hx, hdel, hv, hle⟩
      simp only [readsNoneExpired, hexp] at hmem
      cases hmem
    | sweepExpired n j now' clock => cases hmem
    | _ => cases hread
  · intro x hx n nspace ha
    have hcreate := (hpast.2 x hx).1
    rw [ha] at hcreate
    exact of_decide_eq_true hcreate

/-- `quorum_put` leaves the expiry of the value that it replaces, so that a later `get` deletes
the new value although it has no expiry. -/
theorem old_expiry_deletes_new_value :
    ∃ past, ∃ s s' : KvSwarm (Fin 1) ℕ, ∃ p, Run KvSwarm.step KvSwarm.init past s ∧
      (∀ x ∈ past, ∀ n nspace, x.2 = .create n nspace → KVStore.rstrip nspace = ['k', 'v']) ∧
      s.step (.get 0 0 ['x'] 11 (fun _ => 11)) = some s' ∧
      KvSwarm.NewestPut (KvSwarm.putsOf past) p ∧ p.key = ['x'] ∧ p.ttl = none ∧
      ¬ KvSwarm.Keeps (.init ['k', 'v', '/']) s s' p 11 := by
  have hex : (do
      let s ← exec KvSwarm.step (KvSwarm.init : KvSwarm (Fin 1) ℕ)
        (expiringAt11 (.quorumPut 0 0 ['x'] (.data 2) 1 none [] 5 (fun _ => 5)))
      let s' ← s.step (.get 0 0 ['x'] 11 (fun _ => 11))
      if (['k', 'v', '/', 'x'], ⟨.none, ⟨11, 0⟩, true⟩) ∈ s'.written.drop s.written.length
        then some () else none) = some () := by decide +kernel
  have hpast : KvSwarm.putsOf (execPast KvSwarm.step (KvSwarm.init : KvSwarm (Fin 1) ℕ) []
      (expiringAt11 (.quorumPut 0 0 ['x'] (.data 2) 1 none [] 5 (fun _ => 5)))) =
        [⟨['x'], 5, none, ⟨.data 2, ⟨5, 0⟩, false⟩⟩,
          ⟨['x'], 1, some 10, ⟨.data 1, ⟨1, 0⟩, false⟩⟩] ∧
      ∀ x ∈ execPast KvSwarm.step (KvSwarm.init : KvSwarm (Fin 1) ℕ) []
        (expiringAt11 (.quorumPut 0 0 ['x'] (.data 2) 1 none [] 5 (fun _ => 5))),
      createsKv x.2 = true := by decide +kernel
  obtain ⟨s, hs, hex⟩ := Option.bind_eq_some_iff.1 hex
  obtain ⟨s', hget, hex⟩ := Option.bind_eq_some_iff.1 hex
  split at hex
  · rename_i hdead
    refine ⟨_, s, s', ⟨['x'], 5, none, ⟨.data 2, ⟨5, 0⟩, false⟩⟩, Run.start.exec hs, ?_, hget, ?_,
      rfl, rfl, ?_⟩
    · intro x hx n nspace ha
      have hcreate := hpast.2 x hx
      rw [ha] at hcreate
      exact of_decide_eq_true hcreate
    · rw [hpast.1]
      constructor
      · simp
      · intro q hq
        obtain ⟨hq, _⟩ := hq
        simp only [List.mem_cons, List.not_mem_nil, or_false] at hq
        rcases hq with rfl | rfl
        · exact le_rfl
        · decide
    · intro hkeep
      have hlive := hkeep.1 _ hdead
      cases hlive
  · cases hex

end Suprime
