import Suprime.LiveReads

namespace Suprime
set_option autoImplicit true

variable {ν α : Type} [LinearOrder ν] [DecidableEq α]

namespace KVStore

variable {kv : KVStore ν α} {st : NodeStore ν α}

section
omit [LinearOrder ν]

theorem live_expKey_shared (kv : KVStore ν α) (st : NodeStore ν α) (key : Str)
    (oldValue value : KvValue α) (clock : ℕ → ℚ) (key' : Str) :
    (st.applyWrites clock (kv.reindex key oldValue value ++ [.set (kv.k key) value])).1.live
      (kv.expKey key') = st.live (kv.expKey key') := by
  apply DistributedStore.live_applyWrites_ne
  intro w hw he
  cases List.mem_append.1 hw with
  | inl hw =>
    obtain ⟨name, i, hi⟩ := mem_reindex hw
    exact kv.expKey_ne_indexKey key' name i key (he.symm.trans hi)
  | inr hw =>
    rw [List.mem_singleton.1 hw] at he
    exact kv.k_ne_expKey key key' he

end

section
omit [LinearOrder ν] [DecidableEq α]

theorem answer_ttl_iff (kv : KVStore ν α) (st : NodeStore ν α) (key : Str) (now : ℚ) :
    kv.answer st now (.ttl key) = .seconds none ↔ st.get (kv.expKey key) .none = .none := by
  rw [answer, ttl]
  cases st.get (kv.expKey key) .none with
  | none => simp
  | time t => simp
  | true => simp
  | data v => simp

theorem reads_without_expiry_iff (kv : KVStore ν α) (st : NodeStore ν α) (key : Str)
    (clock now : ℚ) :
    (∀ now' ≥ now, ∀ r : KvRead α, kv.answer st now' r =
        kv.answer (st.applyWrite clock (.delete (kv.expKey key))).1 now' r) ↔
      st.get (kv.expKey key) .none = .none := by
  have hlive : ∀ full, (st.applyWrite clock (.delete (kv.expKey key))).1.live full =
      if full = kv.expKey key then none else st.live full :=
    st.live_applyWrite clock (.delete (kv.expKey key))
  have hgone : (st.applyWrite clock (.delete (kv.expKey key))).1.get (kv.expKey key) .none =
      .none := by
    rw [DistributedStore.get_eq_live, hlive, if_pos rfl]
    rfl
  constructor
  · intro hsame
    rw [← answer_ttl_iff kv st key now, hsame now le_rfl]
    exact (answer_ttl_iff kv _ key now).2 hgone
  · intro hnone now' _ r
    refine (answer_of_live (fun key' => ?_) (fun name i r => ?_) (fun key' => ?_) now' r).symm
    · rw [hlive, if_neg (kv.k_ne_expKey key' key)]
    · rw [DistributedStore.contains_eq_live, hlive, DistributedStore.contains_eq_live,
        if_neg (kv.expKey_ne_indexKey key name i r).symm]
    · by_cases hk : kv.expKey key' = kv.expKey key
      · rw [hk, hgone, hnone]
      · rw [DistributedStore.get_eq_live, hlive, if_neg hk, DistributedStore.get_eq_live]

end

section
omit [LinearOrder ν]

/-- What a node reads after `quorum_put` is what it reads after `put` exactly when the call gives a
`ttl` or the key has no expiry. -/
theorem quorumPut_reads_as_put_iff (kv : KVStore ν α) (st : NodeStore ν α) (key : Str)
    (value : KvValue α) (ttl : Option ℚ) (now : ℚ) (clock : ℕ → ℚ) :
    (∀ now' ≥ now, ∀ r : KvRead α,
      kv.answer (st.applyWrites clock (kv.quorumPutWrites st key value ttl now)).1 now' r =
        kv.answer (st.applyWrites clock (kv.put st key value ttl now clock)).1 now' r) ↔
      ttl ≠ none ∨ st.get (kv.expKey key) .none = .none := by
  cases ttl with
  | some t =>
    have hsame : kv.put st key value (some t) now clock =
        kv.quorumPutWrites st key value (some t) now := rfl
    rw [hsame]
    exact iff_of_true (fun _ _ _ => rfl) (.inl (Option.some_ne_none t))
  | none =>
    obtain ⟨ws, hws⟩ : ∃ ws, ws = kv.reindex key (st.get (kv.k key) .none) value ++
      [.set (kv.k key) value] := ⟨_, rfl⟩
    have hlive : (st.applyWrites clock ws).1.live (kv.expKey key) = st.live (kv.expKey key) := by
      rw [hws]
      exact kv.live_expKey_shared st key _ value clock key
    have hget : (st.applyWrites clock ws).1.get (kv.expKey key) .none =
        st.get (kv.expKey key) .none := by
      rw [DistributedStore.get_eq_live, hlive, DistributedStore.get_eq_live]
    have hquorum : kv.quorumPutWrites st key value none now = ws := by
      rw [hws]
      exact List.append_nil _
    have hput : kv.put st key value none now clock = ws ++
        if (st.applyWrites clock ws).1.contains (kv.expKey key) then [.delete (kv.expKey key)]
        else [] := by
      rw [hws]
      rfl
    rw [hquorum, hput]
    by_cases hc : (st.applyWrites clock ws).1.contains (kv.expKey key) = true
    · rw [if_pos hc, DistributedStore.applyWrites_append_fst]
      refine (reads_without_expiry_iff kv _ key _ now).trans ?_
      rw [hget]
      exact (or_iff_right (fun hno => hno rfl)).symm
    · rw [if_neg hc, List.append_nil]
      refine iff_of_true (fun _ _ _ => rfl) (.inr ?_)
      rw [DistributedStore.contains_eq_live, hlive, Option.not_isSome_iff_eq_none] at hc
      rw [DistributedStore.get_eq_live, hc]
      rfl

end

/-- A key that is put for a second and then given a value without a `ttl`: `quorum_put` keeps the
old expiry. -/
theorem quorumPut_keeps_expiry : ¬ ∀ (kv : KVStore (Fin 1) ℕ) (st : NodeStore (Fin 1) ℕ) key value
    ttl now clock, ∀ now' ≥ now, ∀ r : KvRead ℕ,
      kv.answer (st.applyWrites clock (kv.quorumPutWrites st key value ttl now)).1 now' r =
        kv.answer (st.applyWrites clock (kv.put st key value ttl now clock)).1 now' r := by
  intro hclaim
  have hread := hclaim (.init ['k', 'v']) ((DistributedStore.init 0).set
    ['k', 'v', '.', 'e', 'x', 'p', '/', 'a'] (.time 1) 0).store ['a'] (.data 7) none 0
    (fun _ => 0) 2 (by decide) (.get ['a'] .none)
  exact absurd hread (by decide)

end KVStore

end Suprime
