import Suprime.KvIndexes

namespace Suprime
set_option autoImplicit true

variable {ν α : Type} [LinearOrder ν] [DecidableEq α]

namespace KVStore

variable {kv : KVStore ν α} {st : NodeStore ν α}

section
omit [LinearOrder ν] [DecidableEq α]

theorem indexKey_unique {name name' x x' r r' : Str} (hname : '/' ∉ name) (hname' : '/' ∉ name')
    (hx : '/' ∉ x) (hx' : '/' ∉ x') (h : kv.indexKey name x r = kv.indexKey name' x' r') :
    name = name' ∧ x = x' ∧ r = r' := by
  simp only [indexKey, List.append_assoc, List.singleton_append] at h
  obtain ⟨hnames, h⟩ := cut_unique hname hname' (List.append_cancel_left h)
  exact ⟨hnames, cut_unique hx hx' h⟩

theorem isExpired_eq_true_iff : kv.isExpired st key now = true ↔
    ∃ t, st.live (kv.expKey key) = some (.time t) ∧ t ≤ now := by
  rw [isExpired, DistributedStore.get_eq_live]
  cases hk : st.live (kv.expKey key) with
  | none =>
    apply iff_of_false
    · intro h
      cases h
    · rintro ⟨t, h, _⟩
      cases h
  | some v => cases v <;> simp

end

/-- No index and no index key of one has a slash. -/
def Plain (kv : KVStore ν α) : Prop :=
  ∀ name f, kv.indexes.get name = some f → '/' ∉ name ∧ ∀ v, '/' ∉ f v

end KVStore

/-- The call makes no index with a slash in it, nor one that is there with another extractor. -/
def TimedCall.MakesPlain (kv : KVStore ν α) : TimedCall α → Prop
  | ⟨.createIndex name f, _, _⟩ => ('/' ∉ name ∧ ∀ v, '/' ∉ f v) ∧
      ∀ f', kv.indexes.get name = some f' → f' = f
  | _ => True

namespace KvAlone

variable {past : List (KvAlone ν α × TimedCall α)} {s : KvAlone ν α}

section
omit [LinearOrder ν] [DecidableEq α]

theorem eq_of_due (h : s.kv.Plain) (hname : '/' ∉ name) (hx : '/' ∉ x)
    (hdue : s.Due past key (s.kv.indexKey name x r)) : r = key ∧ ∃ f v,
      s.kv.indexes.get name = some f ∧ s.store.live (s.kv.k key) = some v ∧ x = f v := by
  obtain ⟨name', f, v, hf, hv, -, he⟩ := hdue
  obtain ⟨hname', hf'⟩ := h name' f hf
  obtain ⟨rfl, rfl, rfl⟩ := KVStore.indexKey_unique hname hname' hx (hf' v) he
  exact ⟨rfl, f, v, hf, hv, rfl⟩

theorem apart_of_plain (h : s.kv.Plain) (keys : Set Str) : s.Apart past keys := by
  rintro key hkey full key' ⟨v, hv, name, f, hf, rfl⟩ hkey' hdue
  obtain ⟨hname, hplain⟩ := h name f hf
  obtain ⟨rfl, -⟩ := eq_of_due h hname (hplain v) hdue
  exact hkey' hkey

theorem orderly_of_plain {kv : KVStore ν α} (h : kv.Plain) (key : Str)
    (oldValue newValue : KvValue α) : kv.Orderly key oldValue newValue := by
  apply List.Pairwise.imp_of_mem (R := fun _ _ => True)
  · rintro ⟨name, f⟩ ⟨name', f'⟩ hf hf' - - - he
    have hf := Dict.mem_items.1 hf
    have hf' := Dict.mem_items.1 hf'
    obtain ⟨hname, hx, -⟩ := KVStore.indexKey_unique (h name' f' hf').1 (h name f hf).1
      ((h name' f' hf').2 oldValue) ((h name f hf).2 newValue) he
    have hname : name' = name := hname
    rw [hname, hf] at hf'
    have hff : f = f' := Option.some.inj hf'
    rw [hff] at hx
    exact hx
  · exact List.pairwise_of_forall (fun _ _ => trivial)

theorem clear_of_plain (h : s.kv.Plain) {c : TimedCall α} (hc : c.MakesPlain s.kv) :
    s.Clear past c := by
  have hwrite : ∀ key (v : KvValue α) full key', s.table.EntryOf s.kv.indexKey key full →
      key' ≠ key → s.Due past key' full → s.table.EntryFor s.kv.indexKey key v full := by
    intro key v full key' hold hne hdue
    exact absurd hdue (apart_of_plain h {key} key rfl full key' hold hne)
  obtain ⟨op, now, clock⟩ := c
  cases op with
  | put key value ttl => exact ⟨orderly_of_plain h _ _ _, hwrite key value⟩
  | quorumPut key value ttl => exact ⟨orderly_of_plain h _ _ _, hwrite key value⟩
  | delete key => exact apart_of_plain h _
  | get key => exact fun _ => apart_of_plain h _
  | sweepExpired => exact apart_of_plain h _
  | createIndex name f =>
    intro f' key v hf' _ _
    rw [hc.2 f' hf']

end

section
omit [LinearOrder ν]

theorem plain_of_run (hrun : Run step (init nspace n) past s)
    (hplain : ∀ p ∈ past, p.2.MakesPlain p.1.kv) : s.kv.Plain := by
  induction hrun with
  | start => exact fun name f hf => nomatch hf
  | @next past s c s' hrun hs ih =>
    have hs' := ih (fun p hp => hplain p (List.mem_cons_of_mem _ hp))
    have hc := hplain (s, c) List.mem_cons_self
    obtain ⟨op, now, clock⟩ := c
    cases hs
    cases op with
    | createIndex name' f' =>
      intro name f hf
      have hf : (s.kv.indexes.set name' f').get name = some f := hf
      rw [Dict.get_set] at hf
      by_cases hname : name = name'
      · rw [if_pos hname] at hf
        rw [hname, ← Option.some.inj hf]
        exact hc.1
      · rw [if_neg hname] at hf
        exact hs' name f hf
    | _ => exact hs'

end

section
omit [LinearOrder ν] [DecidableEq α]

theorem live_untouched {kv : KVStore ν α} {st : NodeStore ν α} {ws : List (LocalWrite α)}
    (clock : ℕ → ℚ) (h : ∀ w ∈ ws, ∃ key', kv.Owns key' w.key ∧ key ≠ key') :
    (st.applyWrites clock ws).1.live (kv.k key) = st.live (kv.k key) ∧
      (st.applyWrites clock ws).1.live (kv.expKey key) = st.live (kv.expKey key) := by
  constructor
  · apply DistributedStore.live_applyWrites_ne
    intro w hw he
    obtain ⟨key', hown, hne⟩ := h w hw
    rw [he] at hown
    exact hne hown.eq_of_k
  · apply DistributedStore.live_applyWrites_ne
    intro w hw he
    obtain ⟨key', hown, hne⟩ := h w hw
    rw [he] at hown
    exact hne hown.eq_of_expKey

end

section
omit [LinearOrder ν]

theorem live_step (h : s.kv.TimedExpiries s.store) {c : TimedCall α} (hs : s.step c = some s')
    (hput : ∀ key' v ttl, c.op = .put key' v ttl ∨ c.op = .quorumPut key' v ttl → key ≠ key')
    (hlive : s'.store.live (s.kv.k key) ≠ none) :
    s'.store.live (s.kv.k key) = s.store.live (s.kv.k key) ∧
      s'.store.live (s.kv.expKey key) = s.store.live (s.kv.expKey key) := by
  have hdelete : ∀ clock key', (s.store.applyWrites clock
      (s.kv.delete s.store key' clock)).1.live (s.kv.k key) ≠ none → key ≠ key' := by
    intro clock key' hlive he
    rw [KVStore.live_delete, if_pos he] at hlive
    exact hlive rfl
  obtain ⟨op, now, clock⟩ := c
  cases hs
  cases op with
  | put key' value ttl =>
    apply live_untouched
    intro w hw
    exact ⟨key', (KVStore.mem_put hw).1, hput key' value ttl (.inl rfl)⟩
  | quorumPut key' value ttl =>
    apply live_untouched
    intro w hw
    exact ⟨key', (KVStore.mem_quorumPutWrites hw).1, hput key' value ttl (.inr rfl)⟩
  | delete key' =>
    apply live_untouched
    intro w hw
    exact ⟨key', (KVStore.mem_delete hw).2, hdelete clock key' hlive⟩
  | get key' =>
    simp only [KVStore.opWrites, h.checkExpired, Option.some.injEq] at hlive ⊢
    by_cases hexp : s.kv.isExpired s.store key' now = true
    · rw [if_pos hexp] at hlive ⊢
      apply live_untouched
      intro w hw
      exact ⟨key', (KVStore.mem_delete hw).2, hdelete clock key' hlive⟩
    · rw [if_neg hexp]
      exact ⟨rfl, rfl⟩
  | sweepExpired =>
    obtain ⟨keys, hws, -⟩ := h.exists_sweep now clock
    simp only [hws] at hlive ⊢
    rw [KVStore.live_deleteAll] at hlive
    apply live_untouched
    intro w hw
    obtain ⟨-, key', hkey', hown⟩ := KVStore.mem_deleteAll hw
    refine ⟨key', hown, ?_⟩
    intro he
    rw [he, if_pos hkey'] at hlive
    exact hlive rfl
  | createIndex name f =>
    have hkeys : ∀ w ∈ s.kv.opWrites s.store now clock (.createIndex name f),
        ∃ x r, w.key = s.kv.indexKey name x r := by
      intro w hw
      rw [KVStore.opWrites] at hw
      split at hw
      · cases hw
      · obtain ⟨p, -, rfl⟩ := List.mem_map.1 hw
        exact ⟨_, _, rfl⟩
    constructor
    · apply DistributedStore.live_applyWrites_ne
      intro w hw he
      obtain ⟨x, r, hx⟩ := hkeys w hw
      exact s.kv.k_ne_indexKey _ _ _ _ (he.symm.trans hx)
    · apply DistributedStore.live_applyWrites_ne
      intro w hw he
      obtain ⟨x, r, hx⟩ := hkeys w hw
      exact s.kv.expKey_ne_indexKey _ _ _ _ (he.symm.trans hx)

end

/-- Where the clock does not go back, skipped keys stay expired. -/
def StaysExpired (past : List (KvAlone ν α × TimedCall α)) (s : KvAlone ν α) : Prop :=
  ∀ now, (∀ p ∈ past, p.2.now ≤ now) → ∀ name key, Skipped past name key →
    s.store.live (s.kv.k key) ≠ none → s.kv.isExpired s.store key now = true

section
omit [LinearOrder ν] [DecidableEq α]

theorem isExpired_mono {kv : KVStore ν α} {st : NodeStore ν α} {now now' : ℚ}
    (h : kv.isExpired st key now = true) (hle : now ≤ now') : kv.isExpired st key now' = true := by
  obtain ⟨t, hlive, ht⟩ := KVStore.isExpired_eq_true_iff.1 h
  exact KVStore.isExpired_eq_true_iff.2 ⟨t, hlive, ht.trans hle⟩

end

section
omit [LinearOrder ν]

theorem StaysExpired.next (h : StaysExpired past s) (hsound : s.Sound past) {c : TimedCall α}
    (hs : s.step c = some s') (hclock : ∀ p ∈ past, p.2.now ≤ c.now) :
    StaysExpired ((s, c) :: past) s' := by
  intro now hnow name key hskip hlive
  have hc : c.now ≤ now := hnow (s, c) List.mem_cons_self
  have hbase : s'.kv.base = s.kv.base := by
    cases hs
    exact s.kv.base_afterOp c.op
  rw [KVStore.k_eq hbase] at hlive
  rw [KVStore.isExpired_eq hbase]
  have hput : ∀ key' v ttl, c.op = .put key' v ttl ∨ c.op = .quorumPut key' v ttl → key ≠ key' := by
    intro key' v ttl hop
    cases hop with
    | inl hop =>
      simp only [Skipped, hop] at hskip
      exact hskip.1
    | inr hop =>
      simp only [Skipped, hop] at hskip
      exact hskip.1
  obtain ⟨hvalue, hexp⟩ := live_step hsound.timed hs hput hlive
  rw [hvalue] at hlive
  have hsame : ∀ now, s.kv.isExpired s.store key now = true →
      s.kv.isExpired s'.store key now = true := by
    intro now he
    obtain ⟨t, ht, hle⟩ := KVStore.isExpired_eq_true_iff.1 he
    exact KVStore.isExpired_eq_true_iff.2 ⟨t, hexp.trans ht, hle⟩
  apply hsame
  have hold : Skipped past name key → s.kv.isExpired s.store key now = true := by
    intro hskip
    exact h now (fun p hp => hnow p (List.mem_cons_of_mem _ hp)) name key hskip hlive
  obtain ⟨op, time, clock⟩ := c
  cases op with
  | put key' value ttl => exact hold hskip.2
  | quorumPut key' value ttl => exact hold hskip.2
  | delete key' => exact hold hskip
  | get key' => exact hold hskip
  | sweepExpired => exact hold hskip
  | createIndex name' f =>
    cases hskip with
    | inl hskip =>
      apply isExpired_mono _ hc
      exact Bool.not_eq_false _ |>.mp hskip.2.1
    | inr hskip => exact hold hskip.2

theorem staysExpired_of_run (hrun : Run step (init nspace n) past s)
    (hvalues : ∀ p ∈ past, p.2.PutsValues)
    (hplain : ∀ p ∈ past, p.2.MakesPlain p.1.kv)
    (hclock : past.Pairwise (fun p q => q.2.now ≤ p.2.now)) :
    s.Sound past ∧ StaysExpired past s := by
  induction hrun with
  | start => exact ⟨sound_init nspace n, fun _ _ _ _ hskip => hskip.elim⟩
  | @next past s c s' hrun hs ih =>
    obtain ⟨hc, hclock⟩ := List.pairwise_cons.1 hclock
    have hplain' : ∀ p ∈ past, p.2.MakesPlain p.1.kv :=
      fun p hp => hplain p (List.mem_cons_of_mem _ hp)
    obtain ⟨hsound, hstays⟩ := ih (fun p hp => hvalues p (List.mem_cons_of_mem _ hp)) hplain' hclock
    have hclear : s.Clear past c := clear_of_plain (plain_of_run hrun hplain')
      (hplain (s, c) List.mem_cons_self)
    exact ⟨hsound.next (hvalues (s, c) List.mem_cons_self) hclear hs, hstays.next hsound hs hc⟩

end

end KvAlone

section
omit [LinearOrder ν]

/-- Queries are right when no index and no index key has a slash, no index is made again with
another extractor and the clock does not go back. -/
theorem queryIndex_eq_keysWith {past : List (KvAlone ν α × TimedCall α)} {s : KvAlone ν α}
    (hrun : Run KvAlone.step (.init nspace n) past s)
    (hvalues : ∀ p ∈ past, p.2.PutsValues)
    (hplain : ∀ p ∈ past, p.2.MakesPlain p.1.kv)
    (hclock : past.Pairwise (fun p q => q.2.now ≤ p.2.now)) (hnow : ∀ p ∈ past, p.2.now ≤ now)
    (hname : s.kv.indexes.get name = some f) (hx : '/' ∉ x) :
    s.kv.queryIndex s.store name x now = some (s.keysWith f x now) := by
  obtain ⟨hsound, hstays⟩ := KvAlone.staysExpired_of_run hrun hvalues hplain hclock
  have hkv := KvAlone.plain_of_run hrun hplain
  apply (hsound.queryIndex_eq_iff hname x now).2
  constructor
  · rintro ⟨r, -, key, hdue, hno⟩
    obtain ⟨rfl, f', v, hf', hlive, hv⟩ := KvAlone.eq_of_due hkv (hkv name f hname).1 hx hdue
    rw [hname] at hf'
    have hff : f = f' := Option.some.inj hf'
    exact hno ⟨v, hlive, by rw [hff, hv]⟩
  · rintro ⟨r, hr, hskip, ⟨v, hlive, -⟩, -⟩
    have hexp := hstays now hnow name r hskip (by rw [hlive]; exact nofun)
    have hr : s.kv.isExpired s.store r now = false := hr
    rw [hr] at hexp
    cases hexp

end

end Suprime
