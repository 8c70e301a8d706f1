import Suprime.WireNode

namespace Suprime
set_option autoImplicit true

section
variable {F : Type} [FiniteFloat F] [RationalFloat F] [DecidableEq F] [UnicodeData] [UnicodeDigits]

section
omit [FiniteFloat F] [UnicodeData] [UnicodeDigits]

theorem WireVersion.gt_self (v : WireVersion F) : v.gt v ≠ some true := by
  rw [WireVersion.gt]
  split
  · rw [decide_eq_false (lt_irrefl v.origin)]
    exact fun h => by cases h
  · exact pyGt_self v.ts

end

namespace WireStore

/-- Whether `merge_entry` writes an entry. -/
def Accepts (s : WireStore F) (key : PyKey F) (e : WireEntry F) : Prop :=
  ∀ current, s.data.get key.number = some current → e.version.gt current.version = some true

/-- Whether `merge_entry` raises: on the comparison with the version that it has, or on that of a
timestamp under its own origin, after the write. -/
def Refuses (s : WireStore F) (key : PyKey F) (e : WireEntry F) : Prop :=
  (∃ current, s.data.get key.number = some current ∧ e.version.gt current.version = none) ∨
    s.Accepts key e ∧ e.version.origin = s.nodeId ∧ e.version.ts.toNum = none

section
omit [FiniteFloat F] [UnicodeData] [UnicodeDigits]

theorem mergeEntry_of_accepts {s : WireStore F} (h : s.Accepts key e) :
    s.mergeEntry key e = s.write key e := by
  rw [mergeEntry]
  cases hget : s.data.get key.number with
  | none => rfl
  | some current =>
    have hgt := h current hget
    simp only [hgt]

theorem mergeEntry_of_not_accepts {s : WireStore F} (h : ¬ s.Accepts key e) :
    (s.mergeEntry key e).state = s := by
  rw [mergeEntry]
  cases hget : s.data.get key.number with
  | none => exact absurd (fun current hc => by rw [hget] at hc; cases hc) h
  | some current =>
    cases hgt : e.version.gt current.version with
    | none => simp only [hgt]
    | some b =>
      cases b with
      | false => simp only [hgt]
      | true =>
        apply absurd _ h
        intro c hc
        rw [hget] at hc
        cases hc
        exact hgt

theorem write_of_raised {s : WireStore F} (h : e.version.origin = s.nodeId)
    (hts : e.version.ts.toNum = none) :
    s.write key e = ⟨{ s with data := s.data.set key.number e }, true⟩ := by
  simp only [write, if_pos h, hts]

theorem commits_write_of_not_raised {s : WireStore F} (key : PyKey F)
    (h : ¬ (e.version.origin = s.nodeId ∧ e.version.ts.toNum = none)) :
    (s.write key e).raised = false ∧ (s.write key e).state.commits = s.commits ++ [(key, e)] := by
  rw [write]
  by_cases ho : e.version.origin = s.nodeId
  · cases hts : e.version.ts.toNum with
    | none => exact absurd ⟨ho, hts⟩ h
    | some n => simp only [if_pos ho, commit, and_self]
  · simp only [if_neg ho, commit, and_self]

theorem raised_write_iff (s : WireStore F) (key : PyKey F) (e : WireEntry F) :
    (s.write key e).raised = true ↔ e.version.origin = s.nodeId ∧ e.version.ts.toNum = none := by
  constructor
  · intro hr
    by_contra hn
    rw [(commits_write_of_not_raised key hn).1] at hr
    cases hr
  · intro h
    rw [write_of_raised h.1 h.2]

theorem raised_mergeEntry_iff (s : WireStore F) (key : PyKey F) (e : WireEntry F) :
    (s.mergeEntry key e).raised = true ↔ s.Refuses key e := by
  by_cases ha : s.Accepts key e
  · rw [mergeEntry_of_accepts ha, raised_write_iff]
    constructor
    · intro h
      exact .inr ⟨ha, h⟩
    · intro h
      cases h with
      | inl h =>
        obtain ⟨current, hc, hgt⟩ := h
        rw [ha current hc] at hgt
        cases hgt
      | inr h => exact h.2
  · rw [mergeEntry]
    cases hget : s.data.get key.number with
    | none => exact absurd (fun current hc => by rw [hget] at hc; cases hc) ha
    | some current =>
      cases hgt : e.version.gt current.version with
      | none =>
        simp only [hgt]
        exact iff_of_true trivial (.inl ⟨current, hget, hgt⟩)
      | some b =>
        have hno : ¬ s.Refuses key e := by
          intro h
          cases h with
          | inl h =>
            obtain ⟨c, hc, hn⟩ := h
            rw [hget] at hc
            cases hc
            rw [hgt] at hn
            cases hn
          | inr h => exact ha h.1
        cases b with
        | false =>
          simp only [hgt]
          exact iff_of_false Bool.false_ne_true hno
        | true =>
          apply absurd _ ha
          intro c hc
          rw [hget] at hc
          cases hc
          exact hgt

theorem mergeEntry_eq_iff (s : WireStore F) (key : PyKey F) (e : WireEntry F) :
    (s.mergeEntry key e).state = s ↔ ¬ s.Accepts key e := by
  constructor
  · intro hs ha
    rw [mergeEntry_of_accepts ha] at hs
    by_cases hr : e.version.origin = s.nodeId ∧ e.version.ts.toNum = none
    · rw [write_of_raised hr.1 hr.2] at hs
      have hself : s.data.get key.number = some e := by
        have hdata := congrArg WireStore.data hs
        rw [← hdata]
        exact (Dict.get_set _ _ _ _).trans (if_pos rfl)
      exact e.version.gt_self (ha e hself)
    · have hc := (commits_write_of_not_raised key hr).2
      rw [hs] at hc
      have hlen := congrArg List.length hc
      rw [List.length_append, List.length_singleton] at hlen
      omega
  · exact mergeEntry_of_not_accepts

theorem prefix_commits_mergeEntry (s : WireStore F) (key : PyKey F) (e : WireEntry F) :
    s.commits <+: (s.mergeEntry key e).state.commits := by
  by_cases ha : s.Accepts key e
  · rw [mergeEntry_of_accepts ha]
    by_cases hr : e.version.origin = s.nodeId ∧ e.version.ts.toNum = none
    · simp only [write_of_raised hr.1 hr.2, List.prefix_rfl]
    · rw [(commits_write_of_not_raised key hr).2]
      exact List.prefix_append _ _
  · simp only [mergeEntry_of_not_accepts ha, List.prefix_rfl]

theorem refuses_congr {s s' : WireStore F} {key : PyKey F} {e : WireEntry F}
    (hget : s'.data.get key.number = s.data.get key.number) (hid : s'.nodeId = s.nodeId) :
    s'.Refuses key e ↔ s.Refuses key e := by
  rw [Refuses, Refuses, Accepts, Accepts, hget, hid]

theorem nodeId_mergeEntry (s : WireStore F) (key : PyKey F) (e : WireEntry F) :
    (s.mergeEntry key e).state.nodeId = s.nodeId := by
  by_cases ha : s.Accepts key e
  · rw [mergeEntry_of_accepts ha, write]
    split
    · cases e.version.ts.toNum <;> rfl
    · rfl
  · rw [mergeEntry_of_not_accepts ha]

theorem data_write (s : WireStore F) (key : PyKey F) (e : WireEntry F) :
    (s.write key e).state.data = s.data.set key.number e := by
  rw [write]
  split
  · cases e.version.ts.toNum <;> rfl
  · rfl

theorem get_mergeEntry_ne (s : WireStore F) {key : PyKey F} (e : WireEntry F) {k : PyKey F}
    (h : k ≠ key.number) : (s.mergeEntry key e).state.data.get k = s.data.get k := by
  by_cases ha : s.Accepts key e
  · rw [mergeEntry_of_accepts ha, data_write]
    exact Dict.get_set_ne _ _ h
  · rw [mergeEntry_of_not_accepts ha]

end

end WireStore

namespace WirePeers

/-- Whether `merge` takes a record in. -/
def Accepts (t : WirePeers F) (r : WireRecord F) : Prop :=
  r.nodeId ≠ .str t.selfId ∧
    ∀ p, t.peers.get r.nodeId.number = some p → p.heartbeat < r.heartbeat

section
omit [FiniteFloat F] [UnicodeData] [UnicodeDigits]

theorem merge_of_accepts {t : WirePeers F} {r : WireRecord F} (h : t.Accepts r) (clock : ℚ) :
    ∃ p : WirePeer F, t.merge clock r = { t with peers := t.peers.set r.nodeId.number p } ∧
      p.heartbeat = r.heartbeat := by
  rw [merge, if_neg h.1]
  cases hget : t.peers.get r.nodeId.number with
  | none => exact ⟨_, rfl, rfl⟩
  | some p =>
    have hlt := h.2 p hget
    simp only [gt_iff_lt, if_pos hlt]
    exact ⟨_, rfl, rfl⟩

theorem merge_of_not_accepts {t : WirePeers F} {r : WireRecord F} (h : ¬ t.Accepts r) (clock : ℚ) :
    t.merge clock r = t := by
  rw [merge]
  by_cases hs : r.nodeId = .str t.selfId
  · rw [if_pos hs]
  · rw [if_neg hs]
    cases hget : t.peers.get r.nodeId.number with
    | none => exact absurd ⟨hs, fun p hp => by rw [hget] at hp; cases hp⟩ h
    | some p =>
      have hle : ¬ p.heartbeat < r.heartbeat := by
        intro hlt
        apply h
        refine ⟨hs, fun q hq => ?_⟩
        rw [hget] at hq
        cases hq
        exact hlt
      simp only [gt_iff_lt, if_neg hle]

end

/-- Every peer is still there, with a heartbeat that is not lower. -/
def Le (t t' : WirePeers F) : Prop :=
  ∀ k p, t.peers.get k = some p → ∃ p', t'.peers.get k = some p' ∧ p.heartbeat ≤ p'.heartbeat

section
omit [FiniteFloat F] [UnicodeData] [UnicodeDigits]

theorem le_merge (t : WirePeers F) (clock : ℚ) (r : WireRecord F) : t.Le (t.merge clock r) := by
  intro k p hp
  by_cases ha : t.Accepts r
  · obtain ⟨q, hq, hh⟩ := merge_of_accepts ha clock
    rw [hq]
    by_cases hk : k = r.nodeId.number
    · rw [hk] at hp ⊢
      refine ⟨q, (Dict.get_set _ _ _ _).trans (if_pos rfl), ?_⟩
      rw [hh]
      exact (ha.2 p hp).le
    · exact ⟨p, (Dict.get_set_ne _ _ hk).trans hp, le_rfl⟩
  · rw [merge_of_not_accepts ha]
    exact ⟨p, hp, le_rfl⟩

theorem not_le_of_accepts {t : WirePeers F} {r : WireRecord F} (h : t.Accepts r) (clock : ℚ) :
    ¬ (t.merge clock r).Le t := by
  intro hle
  obtain ⟨q, hq, hh⟩ := merge_of_accepts h clock
  have hget : (t.merge clock r).peers.get r.nodeId.number = some q := by
    rw [hq]
    exact (Dict.get_set _ _ _ _).trans (if_pos rfl)
  obtain ⟨p, hp, hpq⟩ := hle _ q hget
  have hlt := h.2 p hp
  omega

theorem merge_eq_iff (t : WirePeers F) (clock : ℚ) (r : WireRecord F) :
    t.merge clock r = t ↔ ¬ t.Accepts r := by
  constructor
  · intro hm ha
    apply not_le_of_accepts ha clock
    rw [hm]
    exact fun k p hp => ⟨p, hp, le_rfl⟩
  · intro ha
    exact merge_of_not_accepts ha clock

end

end WirePeers

namespace WireItem

def Fails (n : WireNode F) : WireItem F → Prop
  | .broken => True
  | .member _ v => WireRecord.ofEntry v = none
  | .entry key v => ∀ e, WireEntry.fromDict v = some e → n.store.Refuses key e

/-- Whether an item tells the node something new. -/
def News (n : WireNode F) : WireItem F → Prop
  | .broken => False
  | .member _ v => ∃ r, WireRecord.ofEntry v = some r ∧ n.peers.Accepts r
  | .entry key v => ∃ e, WireEntry.fromDict v = some e ∧ n.store.Accepts key e

end WireItem

namespace WireNode

theorem raised_applyItem_iff (n : WireNode F) (x : WireItem F) :
    (n.applyItem x).raised = true ↔ x.Fails n := by
  cases x with
  | broken => exact iff_of_true rfl trivial
  | member clock v =>
    rw [applyItem, WireItem.Fails]
    cases WireRecord.ofEntry v with
    | none => exact iff_of_true rfl rfl
    | some r => exact iff_of_false Bool.false_ne_true (fun h => by cases h)
  | entry key v =>
    rw [applyItem, WireItem.Fails]
    cases WireEntry.fromDict v with
    | none => exact iff_of_true rfl (fun e h => by cases h)
    | some e =>
      apply (n.store.raised_mergeEntry_iff key e).trans
      simp only [Option.some.injEq, forall_eq']

theorem applyItem_eq_iff (n : WireNode F) (x : WireItem F) :
    (n.applyItem x).state = n ↔ ¬ x.News n := by
  cases x with
  | broken => exact iff_of_true rfl not_false
  | member clock v =>
    rw [applyItem, WireItem.News]
    cases WireRecord.ofEntry v with
    | none =>
      apply iff_of_true rfl
      rintro ⟨r, hr, _⟩
      cases hr
    | some r =>
      simp only [Option.some.injEq, exists_eq_left']
      rw [← n.peers.merge_eq_iff clock r]
      constructor
      · intro h
        exact congrArg WireNode.peers h
      · intro h
        rw [h]
  | entry key v =>
    rw [applyItem, WireItem.News]
    cases WireEntry.fromDict v with
    | none =>
      apply iff_of_true rfl
      rintro ⟨e, he, _⟩
      cases he
    | some e =>
      simp only [Option.some.injEq, exists_eq_left']
      rw [← n.store.mergeEntry_eq_iff key e]
      constructor
      · intro h
        exact congrArg WireNode.store h
      · intro h
        rw [h]

/-- The heartbeats and the commits of a node only grow. -/
structure Le (n n' : WireNode F) : Prop where
  peers : n.peers.Le n'.peers
  commits : n.store.commits <+: n'.store.commits

section
omit [FiniteFloat F] [UnicodeData] [UnicodeDigits] [RationalFloat F]

theorem Le.refl (n : WireNode F) : n.Le n :=
  ⟨fun _ p hp => ⟨p, hp, le_rfl⟩, List.prefix_rfl⟩

theorem Le.trans {n n' n'' : WireNode F} (h : n.Le n') (h' : n'.Le n'') : n.Le n'' := by
  refine ⟨?_, h.commits.trans h'.commits⟩
  intro k p hp
  obtain ⟨p', hp', hle⟩ := h.peers k p hp
  obtain ⟨p'', hp'', hle'⟩ := h'.peers k p' hp'
  exact ⟨p'', hp'', hle.trans hle'⟩

end

theorem le_applyItem (n : WireNode F) (x : WireItem F) : n.Le (n.applyItem x).state := by
  cases x with
  | broken => exact Le.refl n
  | member clock v =>
    rw [applyItem]
    cases WireRecord.ofEntry v with
    | none => exact Le.refl n
    | some r => exact ⟨n.peers.le_merge clock r, List.prefix_rfl⟩
  | entry key v =>
    rw [applyItem]
    cases WireEntry.fromDict v with
    | none => exact Le.refl n
    | some e =>
      exact ⟨fun _ p hp => ⟨p, hp, le_rfl⟩, n.store.prefix_commits_mergeEntry key e⟩

theorem not_le_of_news {n : WireNode F} {x : WireItem F} (hnews : x.News n) (hx : ¬ x.Fails n) :
    ¬ (n.applyItem x).state.Le n := by
  intro hle
  cases x with
  | broken => exact hnews
  | member clock v =>
    obtain ⟨r, hr, ha⟩ := hnews
    simp only [applyItem, hr] at hle
    exact WirePeers.not_le_of_accepts ha clock hle.peers
  | entry key v =>
    obtain ⟨e, he, ha⟩ := hnews
    simp only [applyItem, he, WireStore.mergeEntry_of_accepts ha] at hle
    have hwrite : ¬ (e.version.origin = n.store.nodeId ∧ e.version.ts.toNum = none) := by
      intro h
      apply hx
      intro e' he'
      rw [he] at he'
      cases he'
      exact .inr ⟨ha, h⟩
    have hlen := hle.commits.length_le
    simp only [(WireStore.commits_write_of_not_raised key hwrite).2, List.length_append,
      List.length_singleton] at hlen
    omega

theorem growing : Growing (applyItem (F := F)) Le where
  refl := Le.refl
  trans := Le.trans
  grows := le_applyItem
  strict n x hr hle := by
    apply (n.applyItem_eq_iff x).2
    intro hnews
    apply not_le_of_news hnews _ hle
    intro hf
    rw [(n.raised_applyItem_iff x).2 hf] at hr
    cases hr

theorem unrelated_member (x : WireItem F) (clock : ℚ) (v : PyValue F) :
    Unrelated applyItem x (.member clock v) := by
  intro n _
  rw [Bool.eq_iff_iff, raised_applyItem_iff, raised_applyItem_iff]
  exact Iff.rfl

theorem unrelated_broken (x : WireItem F) : Unrelated applyItem x .broken := fun _ _ => rfl

theorem store_applyItem_member (n : WireNode F) (clock : ℚ) (v : PyValue F) :
    (n.applyItem (.member clock v)).state.store = n.store := by
  rw [applyItem]
  cases WireRecord.ofEntry v <;> rfl

theorem unrelated_entry {x : WireItem F} {key : PyKey F}
    (h : ∀ n : WireNode F, (n.applyItem x).state.store.data.get key.number =
        n.store.data.get key.number ∧ (n.applyItem x).state.store.nodeId = n.store.nodeId)
    (v : PyValue F) : Unrelated applyItem x (.entry key v) := by
  intro n _
  obtain ⟨hget, hid⟩ := h n
  rw [Bool.eq_iff_iff, raised_applyItem_iff, raised_applyItem_iff, WireItem.Fails, WireItem.Fails]
  simp only [WireStore.refuses_congr hget hid]

theorem unrelated_member_entry (clock : ℚ) (v w : PyValue F) (key : PyKey F) :
    Unrelated applyItem (.member clock v) (.entry key w) := by
  apply unrelated_entry
  intro n
  rw [store_applyItem_member]
  exact ⟨rfl, rfl⟩

theorem unrelated_entries {key key' : PyKey F} (h : key.number ≠ key'.number) (v w : PyValue F) :
    Unrelated applyItem (.entry key v) (.entry key' w) := by
  apply unrelated_entry
  intro n
  rw [applyItem]
  cases WireEntry.fromDict v with
  | none => exact ⟨rfl, rfl⟩
  | some e =>
    exact ⟨n.store.get_mergeEntry_ne e (Ne.symm h), n.store.nodeId_mergeEntry key e⟩

end WireNode

/-- An item that says nothing about the store. -/
def WireItem.IsMember : WireItem F → Prop
  | .entry _ _ => False
  | _ => True

section
omit [FiniteFloat F] [UnicodeData] [UnicodeDigits]

theorem isMember_of_mem_membershipItems {clock : ℕ → ℚ} {payload : PyValue F} {x : WireItem F}
    (h : x ∈ membershipItems clock payload) : x.IsMember := by
  rw [membershipItems] at h
  cases hl : (getField membershipField (.list []) payload).bind pyIter with
  | none =>
    simp only [hl] at h
    rw [List.mem_singleton.1 h]
    trivial
  | some l =>
    simp only [hl] at h
    obtain ⟨i, hi, rfl⟩ := List.mem_mapIdx.1 h
    trivial

theorem nodup_of_dictItems {v : Option (PyValue F)} {l : List (PyKey F × PyValue F)}
    (h : v.bind dictItems = some l) : (l.map (fun p => p.1.number)).Nodup := by
  obtain ⟨v, _, hv⟩ := Option.bind_eq_some_iff.1 h
  cases v <;> cases hv
  exact nodup_dictFrom _

end

theorem pairwise_storeItems (payload : PyValue F) :
    (storeItems payload).Pairwise (Unrelated WireNode.applyItem) := by
  rw [storeItems]
  cases hl : (getField storeField (.dict []) payload).bind dictItems with
  | none => exact List.pairwise_singleton _ _
  | some l =>
    apply List.pairwise_map.2
    apply List.Pairwise.imp _ (List.pairwise_map.1 (nodup_of_dictItems hl))
    intro p q hne
    exact WireNode.unrelated_entries hne p.2 q.2

theorem pairwise_gossipItems (clock : ℕ → ℚ) (payload : PyValue F) :
    (gossipItems clock payload).Pairwise (Unrelated WireNode.applyItem) := by
  have hmember : ∀ (x : WireItem F) {y : WireItem F}, y.IsMember →
      Unrelated WireNode.applyItem x y := by
    intro x y hy
    cases y with
    | broken => exact WireNode.unrelated_broken x
    | member clock v => exact WireNode.unrelated_member x clock v
    | entry key v => exact hy.elim
  apply List.pairwise_append.2 ⟨?_, pairwise_storeItems payload, ?_⟩
  · exact List.pairwise_of_forall_mem_list
      (fun x _ y hy => hmember x (isMember_of_mem_membershipItems hy))
  · intro x hx y _
    cases y with
    | broken => exact WireNode.unrelated_broken x
    | member clock v => exact WireNode.unrelated_member x clock v
    | entry key w =>
      have hxm := isMember_of_mem_membershipItems hx
      cases x with
      | broken => exact fun n hr => by cases hr
      | member clock v => exact WireNode.unrelated_member_entry clock v w key
      | entry key v => exact hxm.elim

namespace WireNode

/-- Up to the first item that cannot be handled, a digest brings the node no news. -/
def RejectsQuietly (n : WireNode F) (clock : ℕ → ℚ) (m : Message F) : Prop :=
  ∀ type, m.type = .str type → type = MessageType.GOSSIP ∨ type = MessageType.WELCOME →
    ∀ before x after, gossipItems clock m.payload = before ++ x :: after → x.Fails n →
      (∀ y ∈ before, ¬ y.Fails n) → ∀ y ∈ before ++ [x], ¬ y.News n

theorem stopsQuietly_iff (n : WireNode F) (l : List (WireItem F)) :
    StopsQuietly applyItem n l ↔ ∀ before x after, l = before ++ x :: after → x.Fails n →
      (∀ y ∈ before, ¬ y.Fails n) → ∀ y ∈ before ++ [x], ¬ y.News n := by
  rw [StopsQuietly]
  simp only [raised_applyItem_iff, applyItem_eq_iff, ← Bool.not_eq_true]

theorem handleGossip_quiet_iff (n : WireNode F) (clock : ℕ → ℚ) (m : Message F) :
    ((n.handleGossip clock m).raised = true → (n.handleGossip clock m).node = n) ↔
      StopsQuietly applyItem n (gossipItems clock m.payload) :=
  runItems_quiet_iff growing (pairwise_gossipItems clock m.payload)

section
omit [UnicodeData]

theorem handleJoin_of_raised {n : WireNode F} {clock : ℕ → ℚ} {m : Message F}
    (h : (n.handleJoin clock m).raised = true) : (n.handleJoin clock m).node = n := by
  revert h
  rw [handleJoin]
  split
  · split
    · cases m.src.toKey with
      | none => exact fun _ => rfl
      | some src => exact fun h => by cases h
    · exact fun _ => rfl
  · exact fun _ => rfl

end

section
omit [UnicodeData] [UnicodeDigits] [RationalFloat F]

theorem handlePing_node (n : WireNode F) (m : Message F) : (n.handlePing m).node = n := by
  rw [handlePing]
  split
  · rfl
  · split <;> rfl

end

section
omit [FiniteFloat F] [UnicodeData] [UnicodeDigits] [RationalFloat F]

theorem handlePingReq_node (n : WireNode F) (m : Message F) : (n.handlePingReq m).node = n := by
  rw [handlePingReq]
  split <;> rfl

end

section
omit [UnicodeData] [UnicodeDigits]

theorem handleAck_of_raised {n : WireNode F} {clock : ℕ → ℚ} {m : Message F}
    (h : (n.handleAck clock m).raised = true) : (n.handleAck clock m).node = n := by
  revert h
  rw [handleAck]
  split
  · exact fun _ => rfl
  · split
    · split
      · exact fun _ => rfl
      · exact fun h => by cases h
    · exact fun _ => rfl

end

theorem route_of_raised {n : WireNode F} {clock : ℕ → ℚ} {m : Message F}
    (hg : m.type ≠ .str MessageType.GOSSIP) (hw : m.type ≠ .str MessageType.WELCOME)
    (h : (n.route clock m).raised = true) : (n.route clock m).node = n := by
  cases ht : m.type with
  | str type =>
    rw [ht] at hg hw
    have hg' : type ≠ MessageType.GOSSIP := fun he => hg (congrArg _ he)
    have hw' : type ≠ MessageType.WELCOME := fun he => hw (congrArg _ he)
    simp only [route, ht, if_neg hg', if_neg hw'] at h ⊢
    split
    · rename_i hj
      rw [if_pos hj] at h
      exact handleJoin_of_raised h
    · rename_i hj
      rw [if_neg hj] at h
      split
      · exact handlePing_node n m
      · split
        · exact handlePingReq_node n m
        · rename_i hp hr
          rw [if_neg hp, if_neg hr] at h
          split
          · rename_i ha
            rw [if_pos ha] at h
            exact handleAck_of_raised h
          · rfl
  | none => simp only [route, ht, dispatchApp]
  | bool b => simp only [route, ht, dispatchApp]
  | int i => simp only [route, ht, dispatchApp]
  | float f => simp only [route, ht, dispatchApp]
  | list l => simp only [route, ht, dispatchApp]
  | tuple l => simp only [route, ht, dispatchApp]
  | dict l => simp only [route, ht, dispatchApp]

theorem route_gossip (n : WireNode F) (clock : ℕ → ℚ) {m : Message F}
    (h : m.type = .str MessageType.GOSSIP) : n.route clock m = n.handleGossip clock m := by
  simp only [route, h, if_true]

theorem route_welcome (n : WireNode F) (clock : ℕ → ℚ) {m : Message F}
    (h : m.type = .str MessageType.WELCOME) : n.route clock m = n.handleGossip clock m := by
  have hg : MessageType.WELCOME ≠ MessageType.GOSSIP := by decide
  have hj : MessageType.WELCOME ≠ MessageType.JOIN := by decide
  simp only [route, h, if_neg hg, if_neg hj, if_true]

/-- A message that raises leaves the node as it was exactly when it brings no news up to the item
at which it raises. -/
theorem rejected_unchanged_iff (n : WireNode F) (clock : ℕ → ℚ) (m : Message F) :
    ((n.route clock m).raised = true → (n.route clock m).node = n) ↔
      n.RejectsQuietly clock m := by
  have hquiet : ∀ t, m.type = .str t → t = MessageType.GOSSIP ∨ t = MessageType.WELCOME →
      (n.RejectsQuietly clock m ↔ StopsQuietly applyItem n (gossipItems clock m.payload)) := by
    intro t ht hor
    rw [stopsQuietly_iff]
    exact ⟨fun h => h t ht hor, fun h _ _ _ => h⟩
  by_cases hg : m.type = .str MessageType.GOSSIP
  · rw [route_gossip n clock hg, hquiet _ hg (.inl rfl)]
    exact n.handleGossip_quiet_iff clock m
  · by_cases hw : m.type = .str MessageType.WELCOME
    · rw [route_welcome n clock hw, hquiet _ hw (.inr rfl)]
      exact n.handleGossip_quiet_iff clock m
    · apply iff_of_true (route_of_raised hg hw)
      intro t ht hor
      cases hor with
      | inl he => exact absurd (he ▸ ht) hg
      | inr he => exact absurd (he ▸ ht) hw

end WireNode

end

/-- A membership whose first entry is new and whose second entry has no address. -/
def tornMembership : PyValue ℕ :=
  writeItems [(membershipField, .list [
    writeItems [(nodeIdField, .str [97]), (addressField, .str [98]), (heartbeatField, .int 1)],
    writeItems [(nodeIdField, .str [99])]])]

theorem torn_gossip_half_applied :
    ¬ ∃ (_ : UnicodeData) (_ : UnicodeDigits), ∀ (n : WireNode ℕ) (clock : ℕ → ℚ) (m : Message ℕ),
      (m.type = .str MessageType.GOSSIP ∨ m.type = .str MessageType.WELCOME ∨
        m.type = .str MessageType.JOIN ∨ m.type = .str MessageType.PING ∨
        m.type = .str MessageType.PING_REQ ∨ m.type = .str MessageType.ACK) →
      (n.route clock m).raised = true → (n.route clock m).node = n := by
  intro ⟨_, _, hall⟩
  let m : Message ℕ :=
    ⟨.str MessageType.GOSSIP, .str [120], tornMembership, .none, .str [49], .int 0⟩
  have hnode := hall (.init [110]) (fun _ => 0) m (.inl rfl)
  rw [WireNode.route_gossip _ _ rfl] at hnode
  have hpeers := congrArg (fun n => n.peers.peers.keys) (hnode rfl)
  cases hpeers

end Suprime
