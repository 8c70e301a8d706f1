import Suprime.LiveReads

namespace Suprime
set_option autoImplicit true

theorem findRev?_append (f : β → Bool) (l l' : List β) :
    (l ++ l').findRev? f = (l'.findRev? f).or (l.findRev? f) := by
  simp [List.find?_append]

variable {ν α : Type} [LinearOrder ν] [DecidableEq α]

namespace DistributedStore

section
omit [LinearOrder ν] [DecidableEq α]

/-- A key is there after writes when the last write to it sets it, or when it was there and no
write is to it. -/
theorem contains_applyWrites (st : NodeStore ν α) (clock : ℕ → ℚ) (ws : List (LocalWrite α))
    (full : Str) : (st.applyWrites clock ws).1.contains full =
      match ws.findRev? (fun w => w.key = full) with
      | some w => w.live.isSome
      | none => st.contains full := by
  induction ws generalizing st clock with
  | nil => rfl
  | cons w ws ih =>
    rw [applyWrites, List.findRev?]
    dsimp only
    rw [ih]
    cases ws.findRev? (fun w => w.key = full) with
    | some w' => rfl
    | none =>
      dsimp only
      rw [contains_applyWrite]
      by_cases hk : w.key = full
      · rw [if_pos hk.symm, if_pos (decide_eq_true hk)]
      · rw [if_neg (Ne.symm hk), if_neg (by simpa using hk)]

end

end DistributedStore

/-- The calls that begin with `_reindex`. -/
inductive IndexedCall (α : Type)
  | put (value : KvValue α)
  | quorumPut (value : KvValue α)
  | delete

/-- What `_reindex` is given for the new value. -/
def IndexedCall.newValue : IndexedCall α → KvValue α
  | .put value => value
  | .quorumPut value => value
  | .delete => .none

/-- Extractors that may raise: `none` stands for an exception. -/
abbrev Extractors (α : Type) := Dict Str (KvValue α → Option Str)

namespace KVStore

/-- The body of the loop of `_reindex`: its writes, and whether an extractor raised. -/
def reindexIndex (kv : KVStore ν α) (key : Str) (oldValue newValue : KvValue α)
    (p : Str × (KvValue α → Option Str)) : List (LocalWrite α) × Bool :=
  let old := if oldValue = .none then some []
    else (p.2 oldValue).map (fun i => [.delete (kv.indexKey p.1 i key)])
  let new := if newValue = .none then some []
    else (p.2 newValue).map (fun i => [.set (kv.indexKey p.1 i key) .true])
  match old, new with
  | none, _ => ([], true)
  | some ws, none => (ws, true)
  | some ws, some ws' => (ws ++ ws', false)

def reindexLoop (kv : KVStore ν α) (key : Str) (oldValue newValue : KvValue α) :
    List (Str × (KvValue α → Option Str)) → List (LocalWrite α) × Bool
  | [] => ([], false)
  | p :: l =>
    let r := kv.reindexIndex key oldValue newValue p
    if r.2 then r
    else
      let r' := kv.reindexLoop key oldValue newValue l
      (r.1 ++ r'.1, r'.2)

/-- `_reindex` at the beginning of a call: the writes that it makes before it returns or raises, and
whether it raises. -/
def reindexRaising (kv : KVStore ν α) (extractors : Extractors α) (st : NodeStore ν α) (key : Str)
    (c : IndexedCall α) : List (LocalWrite α) × Bool :=
  kv.reindexLoop key (st.get (kv.k key) .none) c.newValue extractors.items

def RaisesOn (v : KvValue α) (p : Str × (KvValue α → Option Str)) : Prop :=
  v ≠ .none ∧ p.2 v = none

def entryOf (kv : KVStore ν α) (key : Str) (v : KvValue α) (p : Str × (KvValue α → Option Str)) :
    Option Str :=
  if v = .none then none else (p.2 v).map (fun i => kv.indexKey p.1 i key)

/-- The first index whose extractor raises is `p`, and `pre` are those before it. -/
def StopsAt (oldValue newValue : KvValue α) (l pre : List (Str × (KvValue α → Option Str)))
    (p : Str × (KvValue α → Option Str)) : Prop :=
  (∃ post, l = pre ++ p :: post) ∧ (∀ q ∈ pre, ¬ RaisesOn oldValue q ∧ ¬ RaisesOn newValue q) ∧
    (RaisesOn oldValue p ∨ RaisesOn newValue p)

/-- What an index writes when its extractor does not raise. -/
def moves (kv : KVStore ν α) (key : Str) (oldValue newValue : KvValue α)
    (p : Str × (KvValue α → Option Str)) : List (LocalWrite α) :=
  (kv.entryOf key oldValue p).toList.map .delete ++
    (kv.entryOf key newValue p).toList.map (fun e => .set e .true)

section
omit [LinearOrder ν]

theorem reindexIndex_of_not_raises (kv : KVStore ν α) (key : Str)
    {p : Str × (KvValue α → Option Str)} (hold : ¬ RaisesOn oldValue p)
    (hnew : ¬ RaisesOn newValue p) :
    kv.reindexIndex key oldValue newValue p = (kv.moves key oldValue newValue p, false) := by
  have hentry : ∀ (v : KvValue α) (f : Str → LocalWrite α), ¬ RaisesOn v p →
      (if v = .none then some [] else (p.2 v).map (fun i => [f (kv.indexKey p.1 i key)])) =
        some ((kv.entryOf key v p).toList.map f) := by
    intro v f hv
    by_cases hnone : v = .none
    · simp [entryOf, hnone]
    · cases hi : p.2 v with
      | none => exact absurd ⟨hnone, hi⟩ hv
      | some i => simp [entryOf, hnone, hi]
  rw [reindexIndex, hentry oldValue .delete hold, hentry newValue (fun e => .set e .true) hnew]
  rfl

theorem reindexIndex_of_raises (kv : KVStore ν α) (key : Str)
    {p : Str × (KvValue α → Option Str)} (h : RaisesOn oldValue p ∨ RaisesOn newValue p) :
    kv.reindexIndex key oldValue newValue p =
      ((kv.entryOf key oldValue p).toList.map .delete, true) := by
  by_cases hold : RaisesOn oldValue p
  · obtain ⟨hne, hi⟩ := hold
    simp [reindexIndex, entryOf, hne, hi]
  · obtain ⟨hne, hi⟩ := h.resolve_left hold
    by_cases hnone : oldValue = .none
    · simp [reindexIndex, entryOf, hnone, hne, hi]
    · cases hold' : p.2 oldValue with
      | none => exact absurd ⟨hnone, hold'⟩ hold
      | some i => simp [reindexIndex, entryOf, hnone, hne, hi, hold']

theorem reindexLoop_of_stopsAt (kv : KVStore ν α) (key : Str)
    {l : List (Str × (KvValue α → Option Str))} (h : StopsAt oldValue newValue l pre p) :
    kv.reindexLoop key oldValue newValue l =
      (pre.flatMap (kv.moves key oldValue newValue) ++
        (kv.entryOf key oldValue p).toList.map .delete, true) := by
  obtain ⟨⟨post, rfl⟩, hpre, hp⟩ := h
  induction pre with
  | nil =>
    rw [List.nil_append, reindexLoop, kv.reindexIndex_of_raises key hp]
    rfl
  | cons q pre ih =>
    obtain ⟨hold, hnew⟩ := hpre q List.mem_cons_self
    rw [List.cons_append, reindexLoop, kv.reindexIndex_of_not_raises key hold hnew,
      ih (fun q' hq' => hpre q' (List.mem_cons_of_mem _ hq'))]
    simp

theorem exists_stopsAt {kv : KVStore ν α} {l : List (Str × (KvValue α → Option Str))}
    (h : (kv.reindexLoop key oldValue newValue l).2 = true) :
    ∃ pre p, StopsAt oldValue newValue l pre p := by
  induction l with
  | nil => cases h
  | cons q l ih =>
    by_cases hq : RaisesOn oldValue q ∨ RaisesOn newValue q
    · refine ⟨[], q, ⟨l, rfl⟩, ?_, hq⟩
      intro q' hq'
      cases hq'
    · rw [not_or] at hq
      rw [reindexLoop, kv.reindexIndex_of_not_raises key hq.1 hq.2] at h
      obtain ⟨pre, p, ⟨post, rfl⟩, hpre, hp⟩ := ih h
      refine ⟨q :: pre, p, ⟨post, rfl⟩, ?_, hp⟩
      intro q' hq'
      cases List.mem_cons.1 hq' with
      | inl he => exact he ▸ hq
      | inr hq' => exact hpre q' hq'

end

section
omit [LinearOrder ν] [DecidableEq α]

theorem key_of_mem_entry {kv : KVStore ν α} {c : Prop} [Decidable c] {o : Option Str}
    {f : Str → LocalWrite α} (hf : ∀ i, (f i).key = kv.indexKey name i key)
    (hws : (if c then some [] else o.map (fun i => [f i])) = some ws) (hw : w ∈ ws) :
    ∃ i, w.key = kv.indexKey name i key := by
  split at hws
  · cases hws
    cases hw
  · obtain ⟨i, -, rfl⟩ := Option.map_eq_some_iff.1 hws
    rw [List.mem_singleton.1 hw]
    exact ⟨i, hf i⟩

end

section
omit [LinearOrder ν]

theorem mem_reindexIndex {kv : KVStore ν α} {w : LocalWrite α}
    (h : w ∈ (kv.reindexIndex key oldValue newValue p).1) : ∃ i, w.key = kv.indexKey p.1 i key := by
  rw [reindexIndex] at h
  split at h
  · cases h
  · rename_i ws hws _
    exact key_of_mem_entry (fun _ => rfl) hws h
  · rename_i ws ws' hws hws'
    cases List.mem_append.1 h with
    | inl h => exact key_of_mem_entry (fun _ => rfl) hws h
    | inr h => exact key_of_mem_entry (fun _ => rfl) hws' h

theorem mem_reindexLoop {kv : KVStore ν α} {w : LocalWrite α}
    (h : w ∈ (kv.reindexLoop key oldValue newValue l).1) :
    ∃ name i, w.key = kv.indexKey name i key := by
  induction l with
  | nil => cases h
  | cons p l ih =>
    rw [reindexLoop] at h
    dsimp only at h
    split at h
    · obtain ⟨i, hi⟩ := mem_reindexIndex h
      exact ⟨p.1, i, hi⟩
    · cases List.mem_append.1 h with
      | inl h =>
        obtain ⟨i, hi⟩ := mem_reindexIndex h
        exact ⟨p.1, i, hi⟩
      | inr h => exact ih h

end

variable {kv : KVStore ν α} {st st' : NodeStore ν α}

section
omit [LinearOrder ν] [DecidableEq α]

theorem TimedExpiries.mem_queryIndex (h : kv.TimedExpiries st) (name i : Str) (now : ℚ) :
    ∃ l, kv.queryIndex st name i now = some l ∧ ∀ r, r ∈ l ↔
      st.contains (kv.indexKey name i r) = true ∧ kv.isExpired st r now = false := by
  have htest : ∀ r, kv.checkExpired st r now ≠ none := by
    intro r
    rw [h.checkExpired]
    exact Option.some_ne_none _
  rw [queryIndex_eq]
  dsimp only
  rw [if_pos (fun r _ => htest r)]
  refine ⟨_, rfl, fun r => ?_⟩
  rw [List.mem_insertionSort, List.mem_filter, mem_keys_under, decide_eq_true_eq, h.checkExpired,
    Option.some.injEq]
  rfl

theorem exists_unexpired (kv : KVStore ν α) (st : NodeStore ν α) (key : Str) :
    ∃ now, kv.isExpired st key now = false := by
  by_contra hno
  have hall : ∀ now, kv.isExpired st key now = true := by
    intro now
    by_contra hfalse
    exact hno ⟨now, by simpa using hfalse⟩
  obtain ⟨t, ht, -⟩ := isExpired_eq_true_iff.1 (hall 0)
  obtain ⟨t', ht', hle⟩ := isExpired_eq_true_iff.1 (hall (t - 1))
  rw [ht] at ht'
  cases ht'
  linarith

theorem isExpired_of_live (hexp : ∀ key, st'.live (kv.expKey key) = st.live (kv.expKey key))
    (key : Str) (now : ℚ) : kv.isExpired st' key now = kv.isExpired st key now := by
  rw [isExpired, isExpired, DistributedStore.get_eq_live, DistributedStore.get_eq_live, hexp]

end

/-- The last write to each entry leaves it there, or away, as it was. -/
def LeavesEntries (st : NodeStore ν α) (ws : List (LocalWrite α)) : Prop :=
  ∀ full w, ws.findRev? (fun w => w.key = full) = some w → w.live.isSome = st.contains full

section
omit [LinearOrder ν] [DecidableEq α]

theorem LeavesEntries.answer (hleave : LeavesEntries st ws) (clock : ℕ → ℚ)
    (hws : ∀ w ∈ ws, ∃ name i, w.key = kv.indexKey name i key) (now : ℚ) (r : KvRead α) :
    kv.answer (st.applyWrites clock ws).1 now r = kv.answer st now r := by
  have hlive : ∀ full, (∀ name i, full ≠ kv.indexKey name i key) →
      (st.applyWrites clock ws).1.live full = st.live full := by
    intro full hfull
    apply DistributedStore.live_applyWrites_ne
    intro w hw he
    obtain ⟨name, i, hi⟩ := hws w hw
    exact hfull name i (he.symm.trans hi)
  apply answer_of_live
  · intro key'
    exact hlive _ (fun name i => kv.k_ne_indexKey key' name i key)
  · intro name i r
    rw [DistributedStore.contains_applyWrites]
    cases hw : ws.findRev? (fun w => w.key = kv.indexKey name i r) with
    | none => rfl
    | some w => exact hleave _ w hw
  · intro key'
    rw [DistributedStore.get_eq_live, DistributedStore.get_eq_live,
      hlive _ (fun name i => kv.expKey_ne_indexKey key' name i key)]

theorem TimedExpiries.leavesEntries (h : kv.TimedExpiries st) {clock : ℕ → ℚ}
    (hws : ∀ w ∈ ws, ∃ name i, w.key = kv.indexKey name i key)
    (hsame : ∀ now, ∀ r : KvRead α,
      kv.answer (st.applyWrites clock ws).1 now r = kv.answer st now r) :
    LeavesEntries st ws := by
  have hexp : ∀ key', (st.applyWrites clock ws).1.live (kv.expKey key') =
      st.live (kv.expKey key') := by
    intro key'
    apply DistributedStore.live_applyWrites_ne
    intro w hw he
    obtain ⟨name, i, hi⟩ := hws w hw
    exact kv.expKey_ne_indexKey key' name i key (he.symm.trans hi)
  intro full w hw
  have hfind : ws.reverse.find? (fun w => decide (w.key = full)) = some w := by
    rw [← List.findRev?_eq_find?_reverse]
    exact hw
  have hmem : w ∈ ws := List.mem_reverse.1 (List.mem_of_find?_eq_some hfind)
  have hkey : w.key = full := by simpa using List.find?_some hfind
  obtain ⟨name, i, hi⟩ := hws w hmem
  have hafter : (st.applyWrites clock ws).1.contains full = w.live.isSome := by
    rw [DistributedStore.contains_applyWrites, hw]
  obtain ⟨now, hnow⟩ := kv.exists_unexpired st key
  have h' : kv.TimedExpiries (st.applyWrites clock ws).1 := by
    intro key' v hv
    rw [hexp] at hv
    exact h key' v hv
  obtain ⟨l, hl, hmem⟩ := h.mem_queryIndex name i now
  obtain ⟨l', hl', hmem'⟩ := h'.mem_queryIndex name i now
  have hq := hsame now (.queryIndex name i)
  rw [answer, answer, hl, hl'] at hq
  have hll : l' = l := KvAnswer.keys.inj hq
  have hkeyl := hmem key
  rw [← hll, hmem', isExpired_of_live hexp, hnow, ← hi, hkey] at hkeyl
  simp only [and_true] at hkeyl
  rw [← hafter]
  exact Bool.eq_iff_iff.2 hkeyl

end

section
omit [DecidableEq α]

theorem findRev?_entry {f : Str → LocalWrite α} (hf : ∀ e, (f e).key = e) (o : Option Str)
    (e : Str) :
    (o.toList.map f).findRev? (fun w => w.key = e) = if o = some e then some (f e) else none := by
  cases o with
  | none => rfl
  | some e' =>
    by_cases he : e' = e
    · simp [hf, he]
    · simp [hf, he]

end

section
omit [LinearOrder ν]

theorem findRev?_moves (kv : KVStore ν α) (key : Str) (oldValue newValue : KvValue α)
    (pre : List (Str × (KvValue α → Option Str))) (e : Str) :
    (pre.flatMap (kv.moves key oldValue newValue)).findRev? (fun w => w.key = e) =
      (pre.findRev? (fun q => kv.entryOf key oldValue q = some e ∨
        kv.entryOf key newValue q = some e)).map (fun q =>
          if kv.entryOf key newValue q = some e then .set e .true else .delete e) := by
  induction pre with
  | nil => rfl
  | cons q pre ih =>
    rw [List.flatMap_cons, findRev?_append, ih, List.findRev?]
    cases pre.findRev? (fun q => kv.entryOf key oldValue q = some e ∨
        kv.entryOf key newValue q = some e) with
    | some q' => rfl
    | none =>
      rw [Option.map_none, Option.none_or, moves, findRev?_append, findRev?_entry (fun _ => rfl),
        findRev?_entry (fun _ => rfl)]
      by_cases hnew : kv.entryOf key newValue q = some e
      · simp [hnew]
      · by_cases hold : kv.entryOf key oldValue q = some e
        · simp [hnew, hold]
        · simp [hnew, hold]

end

/-- The old entry of `p` is away, and each entry of the indexes `pre` is there or away as the last
one of them that has it leaves it: there for the new value, away for the old one. -/
def Unmoved (kv : KVStore ν α) (st : NodeStore ν α) (key : Str) (oldValue newValue : KvValue α)
    (pre : List (Str × (KvValue α → Option Str))) (p : Str × (KvValue α → Option Str)) : Prop :=
  ∀ e, (kv.entryOf key oldValue p = some e → st.contains e = false) ∧
    (kv.entryOf key oldValue p ≠ some e → ∀ q, pre.findRev? (fun q =>
        kv.entryOf key oldValue q = some e ∨ kv.entryOf key newValue q = some e) = some q →
      (kv.entryOf key newValue q = some e ↔ st.contains e = true))

section
omit [LinearOrder ν]

theorem leavesEntries_iff (kv : KVStore ν α) (st : NodeStore ν α) (key : Str)
    (oldValue newValue : KvValue α) (pre : List (Str × (KvValue α → Option Str)))
    (p : Str × (KvValue α → Option Str)) :
    LeavesEntries st (pre.flatMap (kv.moves key oldValue newValue) ++
        (kv.entryOf key oldValue p).toList.map .delete) ↔
      kv.Unmoved st key oldValue newValue pre p := by
  refine forall_congr' (fun e => ?_)
  rw [findRev?_append, findRev?_moves, findRev?_entry (fun _ => rfl)]
  by_cases hold : kv.entryOf key oldValue p = some e
  · rw [if_pos hold, and_iff_left (fun hne => absurd hold hne)]
    constructor
    · exact fun h _ => (h _ rfl).symm
    · intro h w hw
      cases hw
      exact (h hold).symm
  · rw [if_neg hold, and_iff_right (fun he => absurd he hold), Option.none_or]
    constructor
    · intro h _ q hq
      rw [hq] at h
      rw [← h _ rfl]
      by_cases hnew : kv.entryOf key newValue q = some e
      · simp [hnew, LocalWrite.live]
      · simp [hnew, LocalWrite.live]
    · intro h w hw
      obtain ⟨q, hq, rfl⟩ := Option.map_eq_some_iff.1 hw
      rw [Bool.eq_iff_iff, ← h hold q hq]
      by_cases hnew : kv.entryOf key newValue q = some e
      · simp [hnew, LocalWrite.live]
      · simp [hnew, LocalWrite.live]

end

/-- When an extractor raises in a `put`, `delete` or `quorum_put`, no read changes. -/
def FailsUnread (kv : KVStore ν α) (extractors : Extractors α) (st : NodeStore ν α)
    (clock : ℕ → ℚ) (key : Str) (c : IndexedCall α) : Prop :=
  (kv.reindexRaising extractors st key c).2 = true → ∀ now, ∀ r : KvRead α,
    kv.answer (st.applyWrites clock (kv.reindexRaising extractors st key c).1).1 now r =
      kv.answer st now r

section
omit [LinearOrder ν]

/-- A `put`, `delete` or `quorum_put` in which an extractor raises changes no read when the entries
that it has come to by then are there, or away, as it leaves them, and where the expiries are times
only then. -/
theorem failed_write_unread_iff (kv : KVStore ν α) (extractors : Extractors α)
    (st : NodeStore ν α) (clock : ℕ → ℚ) (key : Str) (c : IndexedCall α) :
    ((∀ pre p, StopsAt (st.get (kv.k key) .none) c.newValue extractors.items pre p →
        kv.Unmoved st key (st.get (kv.k key) .none) c.newValue pre p) →
      kv.FailsUnread extractors st clock key c) ∧
    (kv.TimedExpiries st → kv.FailsUnread extractors st clock key c →
      ∀ pre p, StopsAt (st.get (kv.k key) .none) c.newValue extractors.items pre p →
        kv.Unmoved st key (st.get (kv.k key) .none) c.newValue pre p) := by
  have hws : ∀ w ∈ (kv.reindexRaising extractors st key c).1,
      ∃ name i, w.key = kv.indexKey name i key := fun _ hw => mem_reindexLoop hw
  constructor
  · intro hcond hraise now r
    obtain ⟨pre, p, hstop⟩ := exists_stopsAt hraise
    apply LeavesEntries.answer ?_ clock hws
    rw [reindexRaising, kv.reindexLoop_of_stopsAt key hstop]
    exact (kv.leavesEntries_iff st key _ _ pre p).2 (hcond pre p hstop)
  · intro htimed hunread pre p hstop
    have hloop := kv.reindexLoop_of_stopsAt key hstop
    have hleave := htimed.leavesEntries hws (hunread (by rw [reindexRaising, hloop]))
    rw [reindexRaising, hloop] at hleave
    exact (kv.leavesEntries_iff st key _ _ pre p).1 hleave

end

/-- The value of `k` is `0` and the index `i` has an entry for it. -/
def indexedZero : NodeStore (Fin 1) ℕ :=
  ((DistributedStore.init 0).applyWrites (fun _ => 0)
    [.set ['k', 'v', '/', 'k'] (.data 0),
      .set ['k', 'v', '.', 'i', 'd', 'x', '/', 'i', '/', 'a', '/', 'k'] .true]).1

/-- An extractor that gives `a` for the value `0` and raises for others. -/
def zeroOnly : Extractors ℕ :=
  Dict.empty.set ['i'] (fun v => if v = .data 0 then some ['a'] else none)

/-- The entry of the old value is deleted before the extractor raises for the new one. -/
theorem failed_put_unindexes : ¬ ∀ (kv : KVStore (Fin 1) ℕ) (extractors : Extractors ℕ)
    (st : NodeStore (Fin 1) ℕ) (clock : ℕ → ℚ) (key : Str) (c : IndexedCall ℕ),
    kv.FailsUnread extractors st clock key c := by
  intro hclaim
  have hread := hclaim (.init ['k', 'v']) zeroOnly indexedZero (fun _ => 1) ['k'] (.put (.data 1))
    (by decide) 0 (.queryIndex ['i'] ['a'])
  exact absurd hread (by decide)

end KVStore

end Suprime
