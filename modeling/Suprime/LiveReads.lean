import Suprime.PlainIndexes

namespace Suprime
set_option autoImplicit true

variable {ν α : Type} [LinearOrder ν] [DecidableEq α]

theorem insertionSort_eq_of_perm {l l' : List (Str × β)} (h : l.Perm l')
    (hnd : (l.map Prod.fst).Nodup) :
    l.insertionSort (fun p q => p.1 ≤ q.1) = l'.insertionSort (fun p q => p.1 ≤ q.1) := by
  have htotal : Std.Total (fun p q : Str × β => p.1 ≤ q.1) := ⟨fun p q => le_total p.1 q.1⟩
  have htrans : IsTrans (Str × β) (fun p q => p.1 ≤ q.1) := ⟨fun _ _ _ => le_trans⟩
  have hsorted := ((List.perm_insertionSort (fun p q => p.1 ≤ q.1) l).trans h).trans
    (List.perm_insertionSort (fun p q => p.1 ≤ q.1) l').symm
  refine List.Perm.eq_of_pairwise ?_ (List.pairwise_insertionSort _ _)
    (List.pairwise_insertionSort _ _) hsorted
  intro p q hp hq hpq hqp
  rw [List.mem_insertionSort] at hp hq
  exact List.inj_on_of_nodup_map hnd hp (h.mem_iff.2 hq) (le_antisymm hpq hqp)

namespace KVStore

variable {kv : KVStore ν α} {st st' : NodeStore ν α}

section
omit [LinearOrder ν] [DecidableEq α]

theorem checkAll_map (kv : KVStore ν α) (st : NodeStore ν α) (now : ℚ)
    (g : List (Str × KvValue α) → γ) (l : List (Str × KvValue α)) :
    (kv.checkAll st now l).map (fun r => g (unexpired r)) =
      if ∀ p ∈ l, kv.checkExpired st p.1 now ≠ none then
        some (g (l.filter (fun p => kv.checkExpired st p.1 now = some false)))
      else none := by
  induction l generalizing g with
  | nil => rfl
  | cons p l ih =>
    have hrest := fun g' => ih g'
    rw [checkAll] at hrest ⊢
    rw [List.mapM_cons]
    cases hp : kv.checkExpired st p.1 now with
    | none => simp [hp]
    | some b =>
      have hcons := hrest (fun m => g (if b then m else p :: m))
      have hhead : ∀ r, unexpired ((p, b) :: r) = if b then unexpired r else p :: unexpired r := by
        intro r
        cases b <;> rfl
      cases hl : l.mapM (fun p => (kv.checkExpired st p.1 now).map (Prod.mk p)) with
      | none =>
        rw [hl] at hcons
        simp only [Option.map_none, eq_comm (a := none), ite_eq_right_iff] at hcons
        simp only [Option.map_some, Option.bind_eq_bind, Option.bind_some, Option.bind_none,
          Option.map_none, List.forall_mem_cons, hp, ne_eq, reduceCtorEq, not_false_eq_true,
          true_and]
        rw [if_neg (fun h => by cases hcons h)]
      | some r =>
        rw [hl] at hcons
        simp only [Option.map_some] at hcons
        simp only [Option.map_some, Option.bind_eq_bind, Option.bind_some, Option.pure_def,
          List.forall_mem_cons, hp, ne_eq, reduceCtorEq, not_false_eq_true, true_and, hhead]
        rw [hcons]
        cases b with
        | true => simp [hp]
        | false => simp [hp]

theorem checkAll_map_perm {g : List (Str × KvValue α) → γ}
    (hg : ∀ m m' : List (Str × KvValue α), m.Perm m' → (m.map Prod.fst).Nodup → g m = g m')
    (now : ℚ) (hexp : ∀ key, kv.checkExpired st' key now = kv.checkExpired st key now)
    {l l' : List (Str × KvValue α)} (h : l'.Perm l) (hnd : (l'.map Prod.fst).Nodup) :
    (kv.checkAll st' now l').map (fun r => g (unexpired r)) =
      (kv.checkAll st now l).map (fun r => g (unexpired r)) := by
  rw [checkAll_map, checkAll_map]
  simp only [hexp]
  have hall : (∀ p ∈ l', kv.checkExpired st p.1 now ≠ none) ↔
      ∀ p ∈ l, kv.checkExpired st p.1 now ≠ none :=
    forall_congr' (fun p => imp_congr h.mem_iff Iff.rfl)
  by_cases hl : ∀ p ∈ l, kv.checkExpired st p.1 now ≠ none
  · rw [if_pos (hall.2 hl), if_pos hl]
    exact congrArg some (hg _ _ (h.filter _) ((List.filter_sublist.map Prod.fst).nodup hnd))
  · rw [if_neg (fun hl' => hl (hall.1 hl')), if_neg hl]

theorem perm_under {pre : Str} (h : ∀ r, st'.live (pre ++ r) = st.live (pre ++ r)) :
    (st'.under pre).Perm (st.under pre) := by
  apply (List.perm_ext_iff_of_nodup (List.Nodup.of_map _ (st'.nodup_under pre))
    (List.Nodup.of_map _ (st.nodup_under pre))).2
  rintro ⟨r, v⟩
  rw [DistributedStore.mem_under_iff, DistributedStore.mem_under_iff, h]

theorem mem_keys_under {pre : Str} :
    r ∈ (st.under pre).map Prod.fst ↔ st.contains (pre ++ r) = true := by
  rw [DistributedStore.contains_eq_live, Option.isSome_iff_exists, List.mem_map]
  constructor
  · rintro ⟨⟨r, v⟩, hp, rfl⟩
    exact ⟨v, DistributedStore.mem_under_iff.1 hp⟩
  · rintro ⟨v, hv⟩
    exact ⟨(r, v), DistributedStore.mem_under_iff.2 hv, rfl⟩

theorem queryIndex_eq (kv : KVStore ν α) (st : NodeStore ν α) (name i : Str) (now : ℚ) :
    kv.queryIndex st name i now =
      let keys := (st.under (kv.queryPrefix name i)).map Prod.fst
      if ∀ r ∈ keys, kv.checkExpired st r now ≠ none then
        some ((keys.filter (fun r => kv.checkExpired st r now = some false)).insertionSort (· ≤ ·))
      else none := by
  rw [queryIndex, checkAll_map kv st now (fun m => (m.map Prod.fst).insertionSort (· ≤ ·))]
  simp only [List.forall_mem_map, List.filter_map, Function.comp_def]

/-- What is read depends on the values, on which index entries there are and on the expiries. -/
theorem answer_of_live (hk : ∀ key, st'.live (kv.k key) = st.live (kv.k key))
    (hidx : ∀ name i r, st'.contains (kv.indexKey name i r) = st.contains (kv.indexKey name i r))
    (hexp : ∀ key, st'.get (kv.expKey key) .none = st.get (kv.expKey key) .none) (now : ℚ)
    (r : KvRead α) : kv.answer st' now r = kv.answer st now r := by
  have hcheck : ∀ key, kv.checkExpired st' key now = kv.checkExpired st key now := by
    intro key
    rw [checkExpired, checkExpired, hexp]
  have hscan : ∀ pre, kv.checkedScan st' pre now = kv.checkedScan st pre now := by
    intro pre
    apply checkAll_map_perm (fun _ _ => insertionSort_eq_of_perm) now hcheck
    · exact (perm_under hk).filter _
    · exact (List.filter_sublist.map Prod.fst).nodup (st'.nodup_under kv.ns)
  cases r with
  | get key default =>
    rw [answer, answer, checkedGet, checkedGet, hcheck, DistributedStore.get_eq_live,
      DistributedStore.get_eq_live, hk]
  | keys => rw [answer, answer, hscan]
  | scan pre => rw [answer, answer, hscan]
  | range start stop => rw [answer, answer, hscan]
  | ttl key => rw [answer, answer, ttl, ttl, hexp]
  | queryIndex name i =>
    have hmem : ∀ r, r ∈ (st'.under (kv.queryPrefix name i)).map Prod.fst ↔
        r ∈ (st.under (kv.queryPrefix name i)).map Prod.fst := by
      intro r
      rw [mem_keys_under, mem_keys_under]
      exact iff_of_eq (congrArg (· = true) (hidx name i r))
    have hquery : kv.queryIndex st' name i now = kv.queryIndex st name i now := by
      rw [queryIndex_eq, queryIndex_eq]
      simp only [hcheck, hmem]
      have hsorted := (insertionSort_eq_iff
        (List.Nodup.filter (fun r => kv.checkExpired st r now = some false) (st'.nodup_under _))
        (List.Nodup.filter (fun r => kv.checkExpired st r now = some false) (st.nodup_under _))).2
        (fun r => by rw [List.mem_filter, List.mem_filter, hmem])
      rw [hsorted]
    rw [answer, answer, hquery]

end

end KVStore

end Suprime
