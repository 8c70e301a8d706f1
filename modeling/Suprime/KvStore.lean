import Mathlib.Data.List.Sort
import Suprime.StoreSwarm

namespace Suprime
set_option autoImplicit true

/-- What the key/value database keeps in the store: values of the application, expiry times and
the `True` of index entries. -/
inductive KvValue (α : Type)
  | none
  | time (t : ℚ)
  | true
  | data (v : α)
  deriving DecidableEq

instance : PyNone (KvValue α) := ⟨.none⟩

abbrev NodeStore (ν α : Type) := DistributedStore ℚ ν Str (KvValue α)

/-- A local write to the store. -/
inductive LocalWrite (α : Type)
  | set (key : Str) (value : KvValue α)
  | delete (key : Str)

def LocalWrite.key : LocalWrite α → Str
  | .set key _ => key
  | .delete key => key

namespace DistributedStore

variable {ν α : Type}

def live (st : NodeStore ν α) (full : Str) : Option (KvValue α) :=
  (st.data.get full).bind (fun e => if e.deleted then none else some e.value)

theorem get_eq_live (st : NodeStore ν α) (full : Str) (default : KvValue α) :
    st.get full default = (st.live full).getD default := by
  rw [get, live]
  cases st.data.get full with
  | none => rfl
  | some e =>
    obtain ⟨v, x, deleted⟩ := e
    cases deleted <;> rfl

theorem contains_eq_live (st : NodeStore ν α) (full : Str) :
    st.contains full = (st.live full).isSome := by
  rw [contains, live]
  cases st.data.get full with
  | none => rfl
  | some e =>
    obtain ⟨v, x, deleted⟩ := e
    cases deleted <;> rfl

theorem mem_items_iff {st : NodeStore ν α} : (full, v) ∈ st.items ↔ st.live full = some v := by
  rw [items, live, List.mem_map]
  constructor
  · rintro ⟨⟨key, e⟩, he, hp⟩
    obtain ⟨he, hlive⟩ := List.mem_filter.1 he
    cases hp
    rw [Dict.mem_items.1 he, Option.bind_some, if_neg]
    intro hd
    rw [hd] at hlive
    cases hlive
  · intro h
    obtain ⟨e, he, hv⟩ := Option.bind_eq_some_iff.1 h
    split at hv
    · cases hv
    · rename_i hd
      refine ⟨(full, e), List.mem_filter.2 ⟨Dict.mem_items.2 he, ?_⟩, ?_⟩
      · rw [Bool.not_eq_true] at hd
        rw [hd]
        rfl
      · rw [Option.some.inj hv]

def applyWrite (st : NodeStore ν α) (clock : ℚ) :
    LocalWrite α → NodeStore ν α × List (Str × Entry ℚ ν (KvValue α))
  | .set key value =>
    let o := st.set key value clock
    (o.store, o.committed)
  | .delete key =>
    let o := st.delete key clock
    (o.store, o.committed)

/-- Local writes one after the other, each with its own reading of the clock: the store after
them and what they committed. -/
def applyWrites (st : NodeStore ν α) (clock : ℕ → ℚ) :
    List (LocalWrite α) → NodeStore ν α × List (Str × Entry ℚ ν (KvValue α))
  | [] => (st, [])
  | w :: ws =>
    let r := st.applyWrite (clock 0) w
    let r' := r.1.applyWrites (fun i => clock (i + 1)) ws
    (r'.1, r.2 ++ r'.2)

theorem applyWrites_append (st : NodeStore ν α) (clock : ℕ → ℚ) (ws ws' : List (LocalWrite α)) :
    st.applyWrites clock (ws ++ ws') =
      let r := st.applyWrites clock ws
      let r' := r.1.applyWrites (fun i => clock (i + ws.length)) ws'
      (r'.1, r.2 ++ r'.2) := by
  induction ws generalizing st clock with
  | nil => rfl
  | cons w ws ih =>
    simp only [List.cons_append, applyWrites, ih, List.append_assoc, List.length_cons,
      Nat.add_assoc]

theorem get_applyWrite_ne {st : NodeStore ν α} {w : LocalWrite α} (clock : ℚ)
    (h : w.key ≠ key) : (st.applyWrite clock w).1.data.get key = st.data.get key := by
  cases w with
  | set key' value => exact Dict.get_set_ne _ _ (Ne.symm h)
  | delete key' =>
    cases hk : st.data.get key' with
    | none => simp only [applyWrite, delete_of_none hk]
    | some c =>
      simp only [applyWrite, delete_of_some hk]
      exact Dict.get_set_ne _ _ (Ne.symm h)

theorem get_applyWrites_ne {st : NodeStore ν α} {ws : List (LocalWrite α)} (clock : ℕ → ℚ)
    (h : ∀ w ∈ ws, w.key ≠ key) : (st.applyWrites clock ws).1.data.get key = st.data.get key := by
  induction ws generalizing st clock with
  | nil => rfl
  | cons w ws ih =>
    rw [applyWrites]
    dsimp only
    rw [ih _ (fun w' hw' => h w' (List.mem_cons_of_mem _ hw'))]
    exact get_applyWrite_ne _ (h w List.mem_cons_self)

end DistributedStore

/-- The ids of requests are random and never repeat; here they are the calling node and a number
that it counts up. -/
abbrev ReqId (ν : Type) := ν × ℕ

/-- A call of the quorum API that waits for answers: the acknowledgements counted so far or the
answers collected so far. -/
inductive Pending (ν α : Type)
  | acks (n : ℕ)
  | responses (l : List (ν × Option (EntryData ℚ ν (KvValue α))))

/-- A `KVStore` on some node: `base` is its namespace without the slashes at its end. -/
structure KVStore (ν α : Type) where
  base : Str
  indexes : Dict Str (KvValue α → Str)
  pending : Dict (ReqId ν) (Pending ν α)

namespace KVStore

variable {ν α : Type}

def rstrip (nspace : Str) : Str := (nspace.reverse.dropWhile (· = '/')).reverse

def init (nspace : Str) : KVStore ν α := ⟨rstrip nspace, .empty, .empty⟩

def ns (kv : KVStore ν α) : Str := kv.base ++ ['/']

def expNs (kv : KVStore ν α) : Str := kv.base ++ ['.', 'e', 'x', 'p', '/']

def idxNs (kv : KVStore ν α) : Str := kv.base ++ ['.', 'i', 'd', 'x', '/']

def k (kv : KVStore ν α) (key : Str) : Str := kv.ns ++ key

def expKey (kv : KVStore ν α) (key : Str) : Str := kv.expNs ++ key

def indexKey (kv : KVStore ν α) (name indexKey recordKey : Str) : Str :=
  kv.idxNs ++ name ++ ['/'] ++ indexKey ++ ['/'] ++ recordKey

/-- Whether the key has an expiry that has come, as the clock shows `now`. -/
def isExpired (kv : KVStore ν α) (st : NodeStore ν α) (key : Str) (now : ℚ) : Bool :=
  match st.get (kv.expKey key) .none with
  | .time t => decide (now ≥ t)
  | _ => false

/-- The writes of `_reindex`; the extractors stand for the texts of the index keys. -/
def reindex (kv : KVStore ν α) [DecidableEq α] (key : Str) (oldValue newValue : KvValue α) :
    List (LocalWrite α) :=
  kv.indexes.items.flatMap (fun p =>
    (if oldValue = .none then [] else [.delete (kv.indexKey p.1 (p.2 oldValue) key)]) ++
    (if newValue = .none then [] else [.set (kv.indexKey p.1 (p.2 newValue) key) .true]))

variable [DecidableEq α]

/-- The writes of `put`. The last ones depend on what is in the store by then. -/
def put (kv : KVStore ν α) (st : NodeStore ν α) (key : Str) (value : KvValue α)
    (ttl : Option ℚ) (now : ℚ) (clock : ℕ → ℚ) : List (LocalWrite α) :=
  let ws := kv.reindex key (st.get (kv.k key) .none) value ++ [.set (kv.k key) value]
  ws ++
    match ttl with
    | some t => [.set (kv.expKey key) (.time (now + t))]
    | none => if (st.applyWrites clock ws).1.contains (kv.expKey key) then
        [.delete (kv.expKey key)] else []

/-- The local writes of `quorum_put`, which leaves an expiry of the key as it is when it is given
none itself. -/
def quorumPutWrites (kv : KVStore ν α) (st : NodeStore ν α) (key : Str) (value : KvValue α)
    (ttl : Option ℚ) (now : ℚ) : List (LocalWrite α) :=
  kv.reindex key (st.get (kv.k key) .none) value ++ [.set (kv.k key) value] ++
    match ttl with
    | some t => [.set (kv.expKey key) (.time (now + t))]
    | none => []

/-- The entry that `quorum_put` writes and sends around. -/
def quorumPutEntry (kv : KVStore ν α) (st : NodeStore ν α) (key : Str) (value : KvValue α)
    (clock : ℕ → ℚ) : Entry ℚ ν (KvValue α) :=
  let ws := kv.reindex key (st.get (kv.k key) .none) value
  ((st.applyWrites clock ws).1.set (kv.k key) value (clock ws.length)).result

def delete (kv : KVStore ν α) (st : NodeStore ν α) (key : Str) (clock : ℕ → ℚ) :
    List (LocalWrite α) :=
  let ws := kv.reindex key (st.get (kv.k key) .none) .none ++ [.delete (kv.k key)]
  ws ++ if (st.applyWrites clock ws).1.contains (kv.expKey key) then
    [.delete (kv.expKey key)] else []

/-- The writes of `get`: an expired key is deleted on access. -/
def get (kv : KVStore ν α) (st : NodeStore ν α) (key : Str) (now : ℚ) (clock : ℕ → ℚ) :
    List (LocalWrite α) :=
  if kv.isExpired st key now then kv.delete st key clock else []

/-- What `get` returns. -/
def getResult (kv : KVStore ν α) (st : NodeStore ν α) (key : Str) (default : KvValue α)
    (now : ℚ) : KvValue α :=
  if kv.isExpired st key now then default else st.get (kv.k key) default

def deleteAll (kv : KVStore ν α) (st : NodeStore ν α) (clock : ℕ → ℚ) :
    List Str → List (LocalWrite α)
  | [] => []
  | key :: keys =>
    let ws := kv.delete st key clock
    ws ++ kv.deleteAll (st.applyWrites clock ws).1 (fun i => clock (i + ws.length)) keys

def shortKeys (kv : KVStore ν α) (st : NodeStore ν α) : List (Str × KvValue α) :=
  (st.items.filter (fun p => kv.ns.isPrefixOf p.1)).map (fun p => (p.1.drop kv.ns.length, p.2))

def expired (kv : KVStore ν α) (st : NodeStore ν α) (now : ℚ) : List Str :=
  ((kv.shortKeys st).filter (fun p => kv.isExpired st p.1 now)).map Prod.fst

def sweepExpired (kv : KVStore ν α) (st : NodeStore ν α) (now : ℚ) (clock : ℕ → ℚ) :
    List (LocalWrite α) :=
  kv.deleteAll st clock (kv.expired st now)

def scan (kv : KVStore ν α) (st : NodeStore ν α) (pre : Str) (now : ℚ) :
    List (Str × KvValue α) :=
  ((kv.shortKeys st).filter (fun p => pre.isPrefixOf p.1 && !kv.isExpired st p.1 now)).insertionSort
    (fun p q => p.1 ≤ q.1)

/-- The writes of `create_index`, which fills the new index. -/
def createIndex (kv : KVStore ν α) (st : NodeStore ν α) (name : Str)
    (extractor : KvValue α → Str) (now : ℚ) : List (LocalWrite α) :=
  (kv.scan st [] now).map (fun p => .set (kv.indexKey name (extractor p.2) p.1) .true)

section
omit [DecidableEq α]

theorem k_ne_expKey (kv : KVStore ν α) (key key' : Str) : kv.k key ≠ kv.expKey key' := by
  intro h
  simp only [k, ns, expKey, expNs, List.append_assoc] at h
  have ht := List.append_cancel_left h
  simp at ht

theorem k_ne_indexKey (kv : KVStore ν α) (key name i r : Str) :
    kv.k key ≠ kv.indexKey name i r := by
  intro h
  simp only [k, ns, indexKey, idxNs, List.append_assoc] at h
  have ht := List.append_cancel_left h
  simp at ht

theorem expKey_ne_indexKey (kv : KVStore ν α) (key name i r : Str) :
    kv.expKey key ≠ kv.indexKey name i r := by
  intro h
  simp only [expKey, expNs, indexKey, idxNs, List.append_assoc] at h
  have ht := List.append_cancel_left h
  simp at ht

end

theorem mem_reindex {kv : KVStore ν α} {w : LocalWrite α}
    (h : w ∈ kv.reindex key oldValue newValue) : ∃ name i, w.key = kv.indexKey name i key := by
  obtain ⟨p, _, hw⟩ := List.mem_flatMap.1 h
  rcases List.mem_append.1 hw with hw | hw
  · split at hw
    · cases hw
    · rw [List.mem_singleton] at hw
      subst hw
      exact ⟨p.1, _, rfl⟩
  · split at hw
    · cases hw
    · rw [List.mem_singleton] at hw
      subst hw
      exact ⟨p.1, _, rfl⟩

theorem get_quorumPutWrites (kv : KVStore ν α) (st : NodeStore ν α) (key : Str)
    (value : KvValue α) (ttl : Option ℚ) (now : ℚ) (clock : ℕ → ℚ) :
    (st.applyWrites clock (kv.quorumPutWrites st key value ttl now)).1.data.get (kv.k key) =
      some (kv.quorumPutEntry st key value clock) := by
  unfold quorumPutWrites
  rw [DistributedStore.applyWrites_append]
  dsimp only
  rw [DistributedStore.get_applyWrites_ne, DistributedStore.applyWrites_append]
  · dsimp only [DistributedStore.applyWrites, DistributedStore.applyWrite, quorumPutEntry]
    rw [Nat.zero_add]
    exact Dict.get_set_self _ _ _
  · intro w hw
    cases ttl with
    | none => cases hw
    | some t =>
      rw [List.mem_singleton] at hw
      subst hw
      exact (kv.k_ne_expKey key key).symm

end KVStore

end Suprime
