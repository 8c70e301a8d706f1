import Suprime.KvReads
import Suprime.LiveReads

namespace Suprime
set_option autoImplicit true

variable {ν α : Type} [LinearOrder ν] [DecidableEq α]

def answered (l : List (ν × Option (EntryData ℚ ν (KvValue α)))) :
    List (Entry ℚ ν (KvValue α)) :=
  l.filterMap (fun p => p.2.map Entry.fromDict)

section
omit [DecidableEq α]

theorem bestOf_eq_foldl (l : List (ν × Option (EntryData ℚ ν (KvValue α)))) :
    bestOf l = (answered l).foldl (fun o e => some (newer Entry.version o e)) none := by
  rw [bestOf, answered, List.foldl_filterMap]
  congr 1
  funext o p
  cases p.2 with
  | none => rfl
  | some d => rfl

theorem answer_eq_none_iff (nd : KvNode ν α) (call : KvCall ν α) :
    nd.answer call = .none ↔ ∀ b, FirstNewest Entry.version (answered (nd.collected call)) b →
      b.deleted = true ∨ b.value = .none := by
  simp only [← foldl_newer_iff, ← bestOf_eq_foldl]
  rw [KvNode.answer]
  cases bestOf (nd.collected call) with
  | none =>
    apply iff_of_true rfl
    intro b hb
    cases hb
  | some b =>
    simp only [Option.some.injEq, forall_eq']
    cases b.deleted with
    | true => exact iff_of_true rfl (.inl rfl)
    | false => exact (or_iff_right Bool.false_ne_true).symm

end

/-- What a read gives of a key: its value, or the key among the pairs or the keys. -/
def KvRead.Shows (kv : KVStore ν α) (st : NodeStore ν α) (now : ℚ) (key : Str) : KvRead α → Prop
  | .get key' default =>
    key' = key ∧ kv.answer st now (.get key' default) ≠ .value default
  | .ttl _ => False
  | r => (∃ l v, kv.answer st now r = .pairs l ∧ (key, v) ∈ l) ∨
    ∃ l, kv.answer st now r = .keys l ∧ key ∈ l

namespace KVStore

variable {kv : KVStore ν α} {st : NodeStore ν α}

section
omit [DecidableEq α] [LinearOrder ν]

theorem notMem_unexpired (h : kv.checkExpired st key now = some true)
    (hr : kv.checkAll st now l = some r) (v : KvValue α) : (key, v) ∉ unexpired r := by
  have hmap := kv.checkAll_map st now id l
  rw [hr, Option.map_some] at hmap
  split at hmap
  · have hlist : unexpired r = l.filter (fun p => kv.checkExpired st p.1 now = some false) :=
      Option.some.inj hmap
    rw [hlist]
    intro hmem
    have hlive := of_decide_eq_true (List.mem_filter.1 hmem).2
    rw [h] at hlive
    cases hlive
  · cases hmap

theorem notMem_checkedScan (h : kv.checkExpired st key now = some true)
    (hm : kv.checkedScan st pre now = some m) (v : KvValue α) : (key, v) ∉ m := by
  obtain ⟨r, hr, rfl⟩ := Option.map_eq_some_iff.1 hm
  rw [List.mem_insertionSort]
  exact notMem_unexpired h hr v

theorem notMem_queryIndex (h : kv.checkExpired st key now = some true)
    (hm : kv.queryIndex st name i now = some m) : key ∉ m := by
  obtain ⟨r, hr, rfl⟩ := Option.map_eq_some_iff.1 hm
  rw [List.mem_insertionSort, List.mem_map]
  rintro ⟨⟨_, v⟩, hmem, rfl⟩
  exact notMem_unexpired h hr v hmem

theorem not_shows_of_expired (h : kv.checkExpired st key now = some true) (r : KvRead α) :
    ¬ r.Shows kv st now key := by
  cases r with
  | get key' default =>
    rintro ⟨rfl, hne⟩
    apply hne
    rw [answer, checkedGet, h]
    rfl
  | ttl key' => exact id
  | keys =>
    simp only [KvRead.Shows, answer]
    cases hm : kv.checkedScan st [] now with
    | none => simp
    | some m =>
      have hno := notMem_checkedScan h hm
      simp [hno]
  | scan pre =>
    simp only [KvRead.Shows, answer]
    cases hm : kv.checkedScan st pre now with
    | none => simp
    | some m =>
      have hno := notMem_checkedScan h hm
      simp [hno]
  | range start stop =>
    simp only [KvRead.Shows, answer]
    cases hm : kv.checkedScan st [] now with
    | none => simp
    | some m =>
      have hno := notMem_checkedScan h hm
      simp [hno]
  | queryIndex name i =>
    simp only [KvRead.Shows, answer]
    cases hm : kv.queryIndex st name i now with
    | none => simp
    | some m =>
      have hno := notMem_queryIndex h hm
      simp [hno]

end

end KVStore

section
omit [DecidableEq α]

/-- A node that has an expiry of a key that has come gives nothing of the key by any read exactly
when the newest answer that its `quorum_get` has collected is a tombstone or `None`. -/
theorem expired_unread_iff {kv : KVStore ν α} {nd : KvNode ν α} {key : Str} {now : ℚ}
    (hexp : kv.checkExpired nd.store key now = some true) (call : KvCall ν α) :
    ((∀ r : KvRead α, ¬ r.Shows kv nd.store now key) ∧ nd.answer call = .none) ↔
      ∀ b, FirstNewest Entry.version (answered (nd.collected call)) b →
        b.deleted = true ∨ b.value = .none := by
  rw [answer_eq_none_iff]
  exact and_iff_right (KVStore.not_shows_of_expired hexp)

end

/-- A node with an expired key `a` whose call has collected its own value and a newer tombstone. -/
def deletedElsewhere : KvNode (Fin 2) ℕ :=
  { KvNode.init 0 with
    store := ((DistributedStore.init 0).set ['k', 'v', '.', 'e', 'x', 'p', '/', 'a'] (.time 1)
      0).store
    kvs := [{ (KVStore.init ['k', 'v'] : KVStore (Fin 2) ℕ) with
      pending := Dict.empty.set (0, 0) (.responses
        [(0, some ⟨some (.data 7), 1, 0, some false⟩), (1, some ⟨none, 2, 1, some true⟩)]) }] }

theorem expired_unread_deletedElsewhere :
    ((∀ r : KvRead ℕ, ¬ r.Shows (.init ['k', 'v']) deletedElsewhere.store 1 ['a']) ∧
        deletedElsewhere.answer ⟨0, (0, 0), ['k', 'v', '/', 'a'], [], none⟩ = .none) ↔
      ∀ b, FirstNewest Entry.version (answered
          (deletedElsewhere.collected ⟨0, (0, 0), ['k', 'v', '/', 'a'], [], none⟩)) b →
        b.deleted = true ∨ b.value = .none :=
  expired_unread_iff (by decide) _

/-- A value that was put for a second and is read by `quorum_get` a second later. -/
def putForASecond : List (KvAction (Fin 1) ℕ) :=
  [.create 0 ['k', 'v'], .put 0 0 ['a'] (.data 7) (some 1) 0 (fun _ => 0),
    .quorumGet 0 0 ['a'] 1 []]

theorem quorumGet_returns_expired : ¬ ∀ past (s : KvSwarm (Fin 1) ℕ),
    Run KvSwarm.step KvSwarm.init past s → ∀ n, ∀ kv ∈ (s.node n).kvs, ∀ call ∈ (s.node n).calls,
      ∀ key now, call.wrote = none → call.key = kv.k key →
        kv.checkExpired (s.node n).store key now = some true → (s.node n).answer call = .none := by
  intro hclaim
  obtain ⟨past, s, hrun, hread⟩ := exists_run_of_exec KvSwarm.step KvSwarm.init putForASecond
    (fun s : KvSwarm (Fin 1) ℕ => (s.node 0).kvs.head?.bind
      (fun kv => (s.node 0).calls.head?.map (fun call : KvCall (Fin 1) ℕ =>
      (call.wrote.isNone, decide (call.key = kv.k ['a']), kv.checkExpired (s.node 0).store ['a'] 1,
        (s.node 0).answer call))))
    (some (true, true, some true, .data 7)) (by decide +kernel)
  obtain ⟨kv, hkv, hread⟩ := Option.bind_eq_some_iff.1 hread
  obtain ⟨call, hcall, hread⟩ := Option.map_eq_some_iff.1 hread
  simp only [Prod.mk.injEq, Option.isNone_iff_eq_none, decide_eq_true_eq] at hread
  obtain ⟨hwrote, hkey, hexp, hanswer⟩ := hread
  have hnone := hclaim past s hrun 0 kv (List.mem_of_head? hkv) call (List.mem_of_head? hcall)
    ['a'] 1 hwrote hkey hexp
  rw [hanswer] at hnone
  cases hnone

end Suprime
