import Suprime.KvExpiry

namespace Suprime
set_option autoImplicit true

variable {ν α : Type} [LinearOrder ν] [DecidableEq α]

/-- The live entries whose keys begin with a prefix, without the prefix. -/
def DistributedStore.under (st : NodeStore ν α) (pre : Str) : List (Str × KvValue α) :=
  (st.items.filter (fun p => pre.isPrefixOf p.1)).map (fun p => (p.1.drop pre.length, p.2))

/-- The calls that read a database. -/
inductive KvRead (α : Type)
  | get (key : Str) (default : KvValue α)
  | keys
  | scan (pre : Str)
  | range (start stop : Str)
  | ttl (key : Str)
  | queryIndex (name indexKey : Str)

/-- What such a call returns. -/
inductive KvAnswer (α : Type)
  | value (v : KvValue α)
  | pairs (l : List (Str × KvValue α))
  | keys (l : List Str)
  | seconds (t : Option ℚ)
  | raised
  deriving DecidableEq

/-- The calls that may write. -/
inductive KvOp (α : Type)
  | put (key : Str) (value : KvValue α) (ttl : Option ℚ)
  | delete (key : Str)
  | get (key : Str)
  | sweepExpired
  | quorumPut (key : Str) (value : KvValue α) (ttl : Option ℚ)
  | createIndex (name : Str) (extractor : KvValue α → Str)

namespace KVStore

/-- `_is_expired` of whatever is kept as the expiry. `True` is the number 1, and what is not a
number cannot be compared. -/
def checkExpired (kv : KVStore ν α) (st : NodeStore ν α) (key : Str) (now : ℚ) : Option Bool :=
  match st.get (kv.expKey key) .none with
  | .none => some false
  | .time t => some (decide (now ≥ t))
  | .true => some (decide (now ≥ 1))
  | .data _ => none

/-- The pairs with the test of their keys, which raises at the first key that cannot be tested. -/
def checkAll (kv : KVStore ν α) (st : NodeStore ν α) (now : ℚ) (l : List (Str × KvValue α)) :
    Option (List ((Str × KvValue α) × Bool)) :=
  l.mapM (fun p => (kv.checkExpired st p.1 now).map (Prod.mk p))

def unexpired (l : List ((Str × KvValue α) × Bool)) : List (Str × KvValue α) :=
  (l.filter (fun p => !p.2)).map Prod.fst

def checkedScan (kv : KVStore ν α) (st : NodeStore ν α) (pre : Str) (now : ℚ) :
    Option (List (Str × KvValue α)) :=
  (kv.checkAll st now ((st.under kv.ns).filter (fun p => pre.isPrefixOf p.1))).map
    (fun l => (unexpired l).insertionSort (fun p q => p.1 ≤ q.1))

def checkedGet (kv : KVStore ν α) (st : NodeStore ν α) (key : Str) (default : KvValue α) (now : ℚ) :
    Option (KvValue α) :=
  (kv.checkExpired st key now).map
    (fun expired => if expired then default else st.get (kv.k key) default)

def ttl (kv : KVStore ν α) (st : NodeStore ν α) (key : Str) (now : ℚ) : Option (Option ℚ) :=
  match st.get (kv.expKey key) .none with
  | .none => some none
  | .time t => some (some (max 0 (t - now)))
  | .true => some (some (max 0 (1 - now)))
  | .data _ => none

def queryPrefix (kv : KVStore ν α) (name indexKey : Str) : Str :=
  kv.idxNs ++ name ++ ['/'] ++ indexKey ++ ['/']

def queryIndex (kv : KVStore ν α) (st : NodeStore ν α) (name indexKey : Str) (now : ℚ) :
    Option (List Str) :=
  (kv.checkAll st now (st.under (kv.queryPrefix name indexKey))).map
    (fun l => ((unexpired l).map Prod.fst).insertionSort (· ≤ ·))

def answer (kv : KVStore ν α) (st : NodeStore ν α) (now : ℚ) : KvRead α → KvAnswer α
  | .get key default => ((kv.checkedGet st key default now).map .value).getD .raised
  | .keys => ((kv.checkedScan st [] now).map (fun l => .keys (l.map Prod.fst))).getD .raised
  | .scan pre => ((kv.checkedScan st pre now).map .pairs).getD .raised
  | .range start stop =>
    ((kv.checkedScan st [] now).map
      (fun l => .pairs (l.filter (fun p => start ≤ p.1 && p.1 < stop)))).getD .raised
  | .ttl key => ((kv.ttl st key now).map .seconds).getD .raised
  | .queryIndex name indexKey =>
    ((kv.queryIndex st name indexKey now).map .keys).getD .raised

/-- The writes of a call to the store of its node. A call that raises has written nothing yet. -/
def opWrites (kv : KVStore ν α) (st : NodeStore ν α) (now : ℚ) (clock : ℕ → ℚ) :
    KvOp α → List (LocalWrite α)
  | .put key value ttl => kv.put st key value ttl now clock
  | .delete key => kv.delete st key clock
  | .get key =>
    if kv.checkExpired st key now = some true then kv.delete st key clock else []
  | .sweepExpired =>
    match kv.checkAll st now (st.under kv.ns) with
    | none => []
    | some l => kv.deleteAll st clock ((l.filter (fun p => p.2)).map (fun p => p.1.1))
  | .quorumPut key value ttl => kv.quorumPutWrites st key value ttl now
  | .createIndex name extractor =>
    match kv.checkedScan st [] now with
    | none => []
    | some l => l.map (fun p => .set (kv.indexKey name (extractor p.2) p.1) .true)

/-- The database after a call: `create_index` registers the extractor. -/
def afterOp (kv : KVStore ν α) : KvOp α → KVStore ν α
  | .createIndex name extractor => { kv with indexes := kv.indexes.set name extractor }
  | _ => kv

/-- The store after calls, each at its time and with its readings of the clock of the store. -/
def runOps (kv : KVStore ν α) (st : NodeStore ν α) :
    List (KvOp α × ℚ × (ℕ → ℚ)) → NodeStore ν α
  | [] => st
  | (op, now, clock) :: ops =>
    (kv.afterOp op).runOps (st.applyWrites clock (kv.opWrites st now clock op)).1 ops

end KVStore

def prefixes (base : Str) : List Str :=
  [base ++ ['/'], base ++ ['.', 'e', 'x', 'p', '/'], base ++ ['.', 'i', 'd', 'x', '/']]

/-- A beginning of the keys of one database is a beginning of one of the other. -/
def Clash (a b : Str) : Prop :=
  ∃ p ∈ prefixes a, ∃ q ∈ prefixes b, p <+: q ∨ q <+: p

instance (a b : Str) : Decidable (Clash a b) :=
  inferInstanceAs (Decidable (∃ p ∈ prefixes a, ∃ q ∈ prefixes b, p <+: q ∨ q <+: p))

def mine (base full : Str) : Bool := (prefixes base).any (fun p => p.isPrefixOf full)

theorem mine_iff : mine base full = true ↔ ∃ p ∈ prefixes base, p <+: full := by
  simp only [mine, List.any_eq_true, List.isPrefixOf_iff_prefix]

theorem not_mine_of_mine (h : ¬ Clash a b) (ha : mine a full = true) : mine b full = false := by
  rw [← Bool.not_eq_true]
  intro hb
  obtain ⟨p, hp, hpf⟩ := mine_iff.1 ha
  obtain ⟨q, hq, hqf⟩ := mine_iff.1 hb
  exact h ⟨p, hp, q, hq, List.prefix_or_prefix_of_prefix hpf hqf⟩

theorem filter_assocSet [DecidableEq κ] {f : κ → Bool} (hk : f k = false) (v : β)
    (l : List (κ × β)) :
    (assocSet k v l).filter (fun p => f p.1) = l.filter (fun p => f p.1) := by
  induction l with
  | nil => simp [assocSet, hk]
  | cons p l ih =>
    obtain ⟨k', v'⟩ := p
    rw [assocSet]
    by_cases he : k' = k
    · subst he
      rw [if_pos rfl, List.filter_cons_of_neg (by simp [hk]),
        List.filter_cons_of_neg (by simp [hk])]
    · rw [if_neg he, List.filter_cons, List.filter_cons, ih]

theorem Dict.filter_set [DecidableEq κ] {f : κ → Bool} (hk : f k = false) (d : Dict κ β) (v : β) :
    (d.set k v).filter f = d.filter f := by
  simp only [Dict.filter, Dict.set, filter_assocSet hk]

namespace DistributedStore

/-- The stores hold the same entries, in the same order, for the keys of a database. -/
def Agree (base : Str) (st st' : NodeStore ν α) : Prop :=
  st'.data.filter (mine base) = st.data.filter (mine base)

section
omit [LinearOrder ν] [DecidableEq α]

theorem Agree.applyWrite (st : NodeStore ν α) {w : LocalWrite α} (clock : ℚ)
    (h : mine base w.key = false) : Agree base st (st.applyWrite clock w).1 := by
  cases w with
  | set key value => exact Dict.filter_set h _ _
  | delete key =>
    cases hk : st.data.get key with
    | none =>
      simp only [DistributedStore.applyWrite, delete_of_none hk]
      exact rfl
    | some c =>
      simp only [DistributedStore.applyWrite, delete_of_some hk]
      exact Dict.filter_set h _ _

theorem Agree.applyWrites (st : NodeStore ν α) {ws : List (LocalWrite α)} (clock : ℕ → ℚ)
    (h : ∀ w ∈ ws, mine base w.key = false) : Agree base st (st.applyWrites clock ws).1 := by
  induction ws generalizing st clock with
  | nil => exact rfl
  | cons w ws ih =>
    have hrest := ih (st.applyWrite (clock 0) w).1 (fun i => clock (i + 1))
      (fun w' hw' => h w' (List.mem_cons_of_mem _ hw'))
    exact hrest.trans (Agree.applyWrite st (clock 0) (h w List.mem_cons_self))

theorem Agree.data_get {st st' : NodeStore ν α} (h : Agree base st st')
    (hm : mine base key = true) : st'.data.get key = st.data.get key := by
  have hget := congrArg (fun d => d.get key) h
  simp only [Dict.get_filter, hm, if_true] at hget
  exact hget

theorem Agree.get {st st' : NodeStore ν α} (h : Agree base st st')
    (hm : mine base key = true) (default : KvValue α) :
    st'.get key default = st.get key default := by
  simp only [DistributedStore.get, h.data_get hm]

theorem under_filter (st : NodeStore ν α) {pre : Str}
    (hm : ∀ full, pre <+: full → mine base full = true) :
    st.under pre = (⟨st.nodeId, st.data.filter (mine base), st.highestTs⟩ : NodeStore ν α).under
      pre := by
  simp only [under, items, Dict.filter, List.filter_map, List.filter_filter, List.map_map]
  congr 1
  apply List.filter_congr
  intro p _
  simp only [Function.comp]
  cases hp : pre.isPrefixOf p.1 with
  | false => simp
  | true => simp [hm p.1 (List.isPrefixOf_iff_prefix.1 hp)]

theorem Agree.under {st st' : NodeStore ν α} (h : Agree base st st') (pre : Str)
    (hm : ∀ full, pre <+: full → mine base full = true) : st'.under pre = st.under pre := by
  rw [under_filter st' hm, under_filter st hm, h]
  rfl

end

end DistributedStore

namespace KVStore

section
omit [LinearOrder ν] [DecidableEq α]

theorem mem_prefixes (kv : KVStore ν α) :
    kv.ns ∈ prefixes kv.base ∧ kv.expNs ∈ prefixes kv.base ∧ kv.idxNs ∈ prefixes kv.base :=
  ⟨.head _, .tail _ (.head _), .tail _ (.tail _ (.head _))⟩

theorem mine_k (kv : KVStore ν α) (key : Str) : mine kv.base (kv.k key) = true :=
  mine_iff.2 ⟨_, kv.mem_prefixes.1, List.prefix_append _ _⟩

theorem mine_expKey (kv : KVStore ν α) (key : Str) : mine kv.base (kv.expKey key) = true :=
  mine_iff.2 ⟨_, kv.mem_prefixes.2.1, List.prefix_append _ _⟩

theorem mine_indexKey (kv : KVStore ν α) (name i r : Str) :
    mine kv.base (kv.indexKey name i r) = true := by
  apply mine_iff.2
  refine ⟨_, kv.mem_prefixes.2.2, ?_⟩
  simp only [indexKey, List.append_assoc]
  exact List.prefix_append _ _

theorem Owns.mine {kv : KVStore ν α} (h : kv.Owns key full) : Suprime.mine kv.base full = true := by
  obtain rfl | rfl | ⟨name, i, rfl⟩ := h
  · exact kv.mine_k key
  · exact kv.mine_expKey key
  · exact kv.mine_indexKey name i key

end

section
omit [LinearOrder ν]

theorem mine_opWrites {kv : KVStore ν α} {st : NodeStore ν α} {op : KvOp α} {w : LocalWrite α}
    (h : w ∈ kv.opWrites st now clock op) : mine kv.base w.key = true := by
  cases op with
  | put key value ttl => exact (mem_put h).1.mine
  | delete key => exact (mem_delete h).2.mine
  | get key =>
    simp only [opWrites] at h
    split at h
    · exact (mem_delete h).2.mine
    · cases h
  | sweepExpired =>
    simp only [opWrites] at h
    split at h
    · cases h
    · obtain ⟨_, key, _, ho⟩ := mem_deleteAll h
      exact ho.mine
  | quorumPut key value ttl => exact (mem_quorumPutWrites h).1.mine
  | createIndex name extractor =>
    simp only [opWrites] at h
    split at h
    · cases h
    · obtain ⟨p, _, rfl⟩ := List.mem_map.1 h
      exact kv.mine_indexKey name _ _

end

section
omit [LinearOrder ν] [DecidableEq α]

theorem base_afterOp (kv : KVStore ν α) (op : KvOp α) : (kv.afterOp op).base = kv.base := by
  cases op <;> rfl

end

section
omit [LinearOrder ν]

theorem agree_runOps (kv : KVStore ν α) {other : Str} (h : ¬ Clash kv.base other)
    (st : NodeStore ν α) (ops : List (KvOp α × ℚ × (ℕ → ℚ))) :
    st.Agree other (kv.runOps st ops) := by
  induction ops generalizing kv st with
  | nil => exact rfl
  | cons x ops ih =>
    obtain ⟨op, now, clock⟩ := x
    have hstep : st.Agree other (st.applyWrites clock (kv.opWrites st now clock op)).1 :=
      .applyWrites st clock (fun w hw => not_mine_of_mine h (mine_opWrites hw))
    have hrest := ih (kv.afterOp op) (by rw [base_afterOp]; exact h)
      (st.applyWrites clock (kv.opWrites st now clock op)).1
    exact hrest.trans hstep

end

variable {kv : KVStore ν α} {st st' : NodeStore ν α}

section
omit [LinearOrder ν] [DecidableEq α]

theorem checkExpired_congr (h : st.Agree kv.base st') (key : Str) (now : ℚ) :
    kv.checkExpired st' key now = kv.checkExpired st key now := by
  simp only [checkExpired, h.get (kv.mine_expKey key)]

theorem checkAll_congr (h : st.Agree kv.base st') (now : ℚ) (l : List (Str × KvValue α)) :
    kv.checkAll st' now l = kv.checkAll st now l := by
  simp only [checkAll, checkExpired_congr h]

theorem checkedScan_congr (h : st.Agree kv.base st') (pre : Str) (now : ℚ) :
    kv.checkedScan st' pre now = kv.checkedScan st pre now := by
  have hunder := h.under kv.ns (fun full hf => mine_iff.2 ⟨_, kv.mem_prefixes.1, hf⟩)
  simp only [checkedScan, checkAll_congr h, hunder]

theorem answer_congr (h : st.Agree kv.base st') (now : ℚ) (r : KvRead α) :
    kv.answer st' now r = kv.answer st now r := by
  cases r with
  | get key default =>
    simp only [answer, checkedGet, checkExpired_congr h, h.get (kv.mine_k key)]
  | keys => simp only [answer, checkedScan_congr h]
  | scan pre => simp only [answer, checkedScan_congr h]
  | range start stop => simp only [answer, checkedScan_congr h]
  | ttl key => simp only [answer, ttl, h.get (kv.mine_expKey key)]
  | queryIndex name i =>
    have hpre : ∀ full, kv.queryPrefix name i <+: full → mine kv.base full = true := by
      intro full hf
      apply mine_iff.2
      refine ⟨_, kv.mem_prefixes.2.2, List.IsPrefix.trans ?_ hf⟩
      simp only [queryPrefix, List.append_assoc]
      exact List.prefix_append _ _
    simp only [answer, queryIndex, checkAll_congr h, h.under _ hpre]

end

/-- A store in which one key has a value and everything else reads as `None`. -/
def Marked (st : NodeStore ν α) (full : Str) : Prop :=
  (st.get full .none = .true ∨ st.get full .none = .time 0) ∧
    ∀ key, key ≠ full → st.get key .none = .none

section
omit [LinearOrder ν] [DecidableEq α]

theorem get_set_store (st : NodeStore ν α) (key full : Str) (v : KvValue α) (clock : ℚ) :
    (st.set key v clock).store.get full .none = if full = key then v else st.get full .none := by
  rw [DistributedStore.set_store, DistributedStore.get, DistributedStore.get_putLocal]
  by_cases h : full = key
  · rw [if_pos h, if_pos h]
    rfl
  · rw [if_neg h, if_neg h]
    rfl

theorem get_set_none (n : ν) (full key : Str) (clock : ℚ) :
    ((.init n : NodeStore ν α).set full .none clock).store.get key .none = .none := by
  rw [get_set_store]
  exact ite_self _

theorem marked_set {st : NodeStore ν α} (h : ∀ key, st.get key .none = .none) (full : Str)
    {v : KvValue α} (hv : v = .true ∨ v = .time 0) (clock : ℚ) :
    Marked (st.set full v clock).store full := by
  refine ⟨?_, ?_⟩
  · rw [get_set_store, if_pos rfl]
    exact hv
  · intro key hne
    rw [get_set_store, if_neg hne, h]

end

section
omit [LinearOrder ν]

/-- The first `put` of a database without indexes writes the value, and the expiry if there is
one. -/
theorem put_init (nspace key : Str) (n : ν) (v : KvValue α) (ttl : Option ℚ) (now : ℚ)
    (clock : ℕ → ℚ) :
    (init nspace : KVStore ν α).put (.init n) key v ttl now clock =
      .set ((init nspace : KVStore ν α).k key) v ::
        (ttl.map (fun t =>
          .set ((init nspace : KVStore ν α).expKey key) (.time (now + t)))).toList := by
  cases ttl with
  | some t => rfl
  | none =>
    have hno : (((.init n : NodeStore ν α).applyWrites clock
        [.set ((init nspace : KVStore ν α).k key) v]).1).contains
        ((init nspace : KVStore ν α).expKey key) = false := by
      simp only [DistributedStore.applyWrites, DistributedStore.applyWrite,
        DistributedStore.set_store, DistributedStore.contains, DistributedStore.get_putLocal,
        if_neg (k_ne_expKey _ key key).symm]
      rfl
    exact congrArg (fun l => _ :: l) (if_neg (fun h => Bool.false_ne_true (hno.symm.trans h)))

end

section
omit [LinearOrder ν] [DecidableEq α]

theorem checkExpired_none (kv : KVStore ν α) {st : NodeStore ν α} (key : Str)
    (h : st.get (kv.expKey key) .none = .none) (now : ℚ) :
    kv.checkExpired st key now = some false := by
  rw [checkExpired, h]

theorem checkAll_none {kv : KVStore ν α} {st : NodeStore ν α}
    (h : ∀ key, st.get (kv.expKey key) .none = .none) (now : ℚ) (l : List (Str × KvValue α)) :
    kv.checkAll st now l = some (l.map (fun p => (p, false))) := by
  induction l with
  | nil => rfl
  | cons p l ih =>
    have hp := checkExpired_none kv p.1 (h p.1) now
    rw [checkAll] at ih ⊢
    rw [List.mapM_cons, hp, ih]
    rfl

end

section
omit [DecidableEq α]

theorem unexpired_map (l : List (Str × KvValue α)) :
    unexpired (l.map (fun p => (p, false))) = l := by
  induction l with
  | nil => rfl
  | cons p l ih =>
    rw [unexpired] at ih ⊢
    rw [List.map_cons, List.filter_cons_of_pos rfl, List.map_cons, ih]

end

section
omit [LinearOrder ν]

theorem createIndex_init (nspace name : Str) (n : ν) (clock : ℕ → ℚ) (c now : ℚ) :
    (init nspace : KVStore ν α).opWrites
      ((.init n : NodeStore ν α).set ((init nspace : KVStore ν α).k []) .none c).store now clock
      (.createIndex name (fun _ => [])) =
    [.set ((init nspace : KVStore ν α).indexKey name [] []) .true] := by
  have hnone : ∀ key, ((.init n : NodeStore ν α).set ((init nspace : KVStore ν α).k [])
      .none c).store.get ((init nspace : KVStore ν α).expKey key) .none = .none :=
    fun key => get_set_none n _ _ c
  have hunder : ((.init n : NodeStore ν α).set ((init nspace : KVStore ν α).k [])
      .none c).store.under (init nspace : KVStore ν α).ns = [([], .none)] := by
    have hself : (init nspace : KVStore ν α).ns.isPrefixOf ((init nspace : KVStore ν α).k []) =
        true := List.isPrefixOf_iff_prefix.2 (List.prefix_append _ _)
    have hitems : ((.init n : NodeStore ν α).set ((init nspace : KVStore ν α).k [])
        .none c).store.items = [((init nspace : KVStore ν α).k [], .none)] := rfl
    rw [DistributedStore.under, hitems]
    simp only [List.filter_cons, hself, if_true, List.filter_nil, List.map_cons, List.map_nil]
    rw [k, List.drop_left]
  rw [opWrites, checkedScan, hunder, checkAll_none hnone]
  rfl

theorem exists_marked (nspace : Str) (n : ν) (hp : p ∈ prefixes (rstrip nspace)) (mid : Str) :
    ∃ ops, Marked ((init nspace : KVStore ν α).runOps (.init n) ops)
      (p ++ (mid ++ ['/', '/'])) := by
  let kv : KVStore ν α := init nspace
  have hcases : p = kv.ns ∨ p = kv.expNs ∨ p = kv.idxNs := by
    have hmem : p ∈ [kv.ns, kv.expNs, kv.idxNs] := hp
    simpa only [List.mem_cons, List.not_mem_nil, or_false] using hmem
  obtain rfl | rfl | rfl := hcases
  · refine ⟨[(.put (mid ++ ['/', '/']) .true none, 0, fun _ => 0)], ?_⟩
    have hst : kv.runOps (.init n) [(.put (mid ++ ['/', '/']) .true none, 0, fun _ => 0)] =
        ((.init n : NodeStore ν α).set (kv.k (mid ++ ['/', '/'])) .true 0).store := by
      simp only [runOps, opWrites, kv, put_init]
      rfl
    rw [hst]
    exact marked_set (fun _ => rfl) _ (.inl rfl) 0
  · refine ⟨[(.put (mid ++ ['/', '/']) .none (some 0), 0, fun _ => 0)], ?_⟩
    have hst : kv.runOps (.init n) [(.put (mid ++ ['/', '/']) .none (some 0), 0, fun _ => 0)] =
        (((.init n : NodeStore ν α).set (kv.k (mid ++ ['/', '/'])) .none 0).store.set
          (kv.expKey (mid ++ ['/', '/'])) (.time (0 + 0)) 0).store := by
      simp only [runOps, opWrites, kv, put_init]
      rfl
    rw [hst, add_zero]
    exact marked_set (fun _ => get_set_none n _ _ 0) _ (.inr rfl) 0
  · refine ⟨[(.put [] .none none, 0, fun _ => 0),
      (.createIndex mid (fun _ => []), 0, fun _ => 0)], ?_⟩
    have hst : kv.runOps (.init n) [(.put [] .none none, 0, fun _ => 0),
        (.createIndex mid (fun _ => []), 0, fun _ => 0)] =
        (((.init n : NodeStore ν α).set (kv.k []) .none 0).store.set
          (kv.indexKey mid [] []) .true 0).store := by
      have hfirst : ((.init n : NodeStore ν α).applyWrites (fun _ => 0)
          (kv.opWrites (.init n) 0 (fun _ => 0) (.put [] .none none))).1 =
          ((.init n : NodeStore ν α).set (kv.k []) .none 0).store := by
        simp only [opWrites, kv, put_init]
        rfl
      simp only [runOps, hfirst, afterOp, kv, createIndex_init]
      rfl
    have hkey : kv.idxNs ++ (mid ++ ['/', '/']) = kv.indexKey mid [] [] := by
      simp [indexKey]
    rw [hst, hkey]
    exact marked_set (fun _ => get_set_none n _ _ 0) _ (.inl rfl) 0

end

section
omit [LinearOrder ν] [DecidableEq α]

theorem mem_items_of_get {st : NodeStore ν α} (h : st.get full .none ≠ .none) :
    (full, st.get full .none) ∈ st.items := by
  rw [DistributedStore.get_eq_live] at h ⊢
  rw [DistributedStore.mem_items_iff]
  cases hk : st.live full with
  | none =>
    rw [hk] at h
    exact absurd rfl h
  | some v => rfl

theorem exists_answer_ne (kv : KVStore ν α) (hq : q ∈ prefixes kv.base) (mid : Str) (n : ν)
    {st : NodeStore ν α} (h : Marked st (q ++ (mid ++ ['/', '/']))) :
    ∃ r, kv.answer st 0 r ≠ kv.answer (.init n) 0 r := by
  have hcases : q = kv.ns ∨ q = kv.expNs ∨ q = kv.idxNs := by
    have hmem : q ∈ [kv.ns, kv.expNs, kv.idxNs] := hq
    simpa only [List.mem_cons, List.not_mem_nil, or_false] using hmem
  obtain ⟨hval, hrest⟩ := h
  obtain rfl | rfl | rfl := hcases
  · refine ⟨.get (mid ++ ['/', '/']) .none, ?_⟩
    have hexp := checkExpired_none kv (mid ++ ['/', '/']) (hrest (kv.expKey (mid ++ ['/', '/']))
      (k_ne_expKey kv _ _).symm) 0
    have hinit : kv.checkExpired (.init n) (mid ++ ['/', '/']) 0 = some false :=
      checkExpired_none kv _ rfl 0
    simp only [answer, checkedGet, hexp, hinit, Option.map_some, Option.getD_some, ne_eq,
      KvAnswer.value.injEq, Bool.false_eq_true, if_false]
    intro he
    have hnone : st.get (kv.ns ++ (mid ++ ['/', '/'])) .none = .none := he
    cases hval with
    | inl hv => cases hv.symm.trans hnone
    | inr hv => cases hv.symm.trans hnone
  · refine ⟨.ttl (mid ++ ['/', '/']), ?_⟩
    have hinit : kv.answer (.init n) 0 (.ttl (mid ++ ['/', '/'])) = .seconds none := rfl
    rw [hinit]
    cases hval with
    | inl hv =>
      have hget : st.get (kv.expKey (mid ++ ['/', '/'])) .none = .true := hv
      simp [answer, ttl, hget]
    | inr hv =>
      have hget : st.get (kv.expKey (mid ++ ['/', '/'])) .none = .time 0 := hv
      simp [answer, ttl, hget]
  · refine ⟨.queryIndex mid [], ?_⟩
    have hpre : kv.queryPrefix mid [] = kv.idxNs ++ (mid ++ ['/', '/']) := by
      simp [queryPrefix]
    have hne : st.get (kv.idxNs ++ (mid ++ ['/', '/'])) .none ≠ .none := by
      intro hnone
      cases hval with
      | inl hv => cases hv.symm.trans hnone
      | inr hv => cases hv.symm.trans hnone
    have hmem : ([], st.get (kv.idxNs ++ (mid ++ ['/', '/'])) .none) ∈
        st.under (kv.queryPrefix mid []) := by
      rw [hpre]
      refine List.mem_map.2 ⟨_, List.mem_filter.2 ⟨mem_items_of_get hne, ?_⟩, ?_⟩
      · exact List.isPrefixOf_iff_prefix.2 (List.prefix_refl _)
      · rw [List.drop_length]
    have hnone : ∀ key, st.get (kv.expKey key) .none = .none := by
      intro key
      apply hrest
      have hidx := expKey_ne_indexKey kv key mid [] []
      simpa [indexKey] using hidx
    have hinit : kv.answer (.init n) 0 (.queryIndex mid []) = .keys [] := rfl
    rw [hinit]
    simp only [answer, queryIndex, checkAll_none hnone, Option.map_some, Option.getD_some,
      unexpired_map, ne_eq, KvAnswer.keys.injEq]
    intro hnil
    have hkey := List.mem_map_of_mem (f := Prod.fst) hmem
    rw [← List.mem_insertionSort (r := (· ≤ ·)), hnil] at hkey
    cases hkey

end

end KVStore

/-- Reads of a database with the second namespace give what they would give without the calls on
one with the first. -/
def Isolated (ν α : Type) [LinearOrder ν] [DecidableEq α] (nspace nspace' : Str) : Prop :=
  ∀ (kv kv' : KVStore ν α) (st : NodeStore ν α) (ops : List (KvOp α × ℚ × (ℕ → ℚ))) (now : ℚ)
    (r : KvRead α), kv.base = KVStore.rstrip nspace → kv'.base = KVStore.rstrip nspace' →
    kv'.answer (kv.runOps st ops) now r = kv'.answer st now r

/-- Namespaces are isolated exactly when their beginnings do not clash. -/
theorem isolated_iff (n : ν) (nspace nspace' : Str) :
    Isolated ν α nspace nspace' ↔ ¬ Clash (KVStore.rstrip nspace) (KVStore.rstrip nspace') := by
  constructor
  · intro h hclash
    obtain ⟨p, hp, q, hq, hpq⟩ := hclash
    have hmid : ∃ mid mid', p ++ (mid ++ ['/', '/']) = q ++ (mid' ++ ['/', '/']) := by
      cases hpq with
      | inl hpq =>
        obtain ⟨mid, rfl⟩ := hpq
        exact ⟨mid, [], by simp⟩
      | inr hqp =>
        obtain ⟨mid, rfl⟩ := hqp
        exact ⟨[], mid, by simp⟩
    obtain ⟨mid, mid', hfull⟩ := hmid
    obtain ⟨ops, hmarked⟩ := KVStore.exists_marked (α := α) nspace n hp mid
    rw [hfull] at hmarked
    obtain ⟨r, hne⟩ := KVStore.exists_answer_ne (.init nspace') hq mid' n hmarked
    exact hne (h (.init nspace) (.init nspace') (.init n) ops 0 r rfl rfl)
  · intro hno kv kv' st ops now r hkv hkv'
    apply KVStore.answer_congr
    apply KVStore.agree_runOps
    rw [hkv, hkv']
    exact hno

example : ¬ Clash "kv".toList "agent/mem".toList := by decide

/-- The keys of a database inside the namespace of another one: a `put` of `"mem/plan"` to the
database `"agent"` is read as `"plan"` in `"agent/mem"`. -/
theorem nested_namespace_is_written : ¬ ∀ nspace nspace' : Str,
    KVStore.rstrip nspace ≠ KVStore.rstrip nspace' → Isolated (Fin 1) ℕ nspace nspace' := by
  intro hclaim
  have h := hclaim "agent/".toList "agent/mem/".toList (by decide) (.init "agent/".toList)
    (.init "agent/mem/".toList) (.init 0) [(.put "mem/plan".toList (.data 7) none, 1, fun _ => 1)] 2
    (.get "plan".toList .none) rfl rfl
  have hread : KVStore.answer (.init "agent/mem/".toList : KVStore (Fin 1) ℕ) (KVStore.runOps
      (.init "agent/".toList) (.init 0)
      [(.put "mem/plan".toList (.data 7) none, 1, fun _ => 1)]) 2 (.get "plan".toList .none) =
      .value (.data 7) := by decide
  rw [hread] at h
  exact absurd h (by decide)

end Suprime
