import Suprime.Rejections

namespace Suprime
set_option autoImplicit true

section
variable {F : Type} [FiniteFloat F] [RationalFloat F] [DecidableEq F] [UnicodeData] [UnicodeDigits]

namespace WireVersion

/-- The timestamp is a number, and not NaN. -/
def Numeric (v : WireVersion F) : Prop := ∃ a, v.ts.toNum = some a ∧ a ≠ .nan

/-- `v >= w` as tuples of timestamp and origin. -/
def AtLeast (v w : WireVersion F) : Prop :=
  pySame v.ts w.ts = true ∧ v.origin = w.origin ∨ v.gt w = some true

section
omit [FiniteFloat F] [UnicodeData] [UnicodeDigits]

theorem atLeast_self {v : WireVersion F} (h : v.Numeric) : v.AtLeast v := by
  obtain ⟨a, ha, _⟩ := h
  apply Or.inl
  rw [pySame_of_toNum ha ha]
  exact ⟨decide_eq_true rfl, rfl⟩

theorem gt_or_atLeast {v w : WireVersion F} (hv : v.Numeric) (hw : w.Numeric) :
    v.gt w = some true ∨ v.gt w = some false ∧ w.AtLeast v := by
  obtain ⟨a, ha, hna⟩ := hv
  obtain ⟨b, hb, hnb⟩ := hw
  rw [AtLeast, gt, gt, pySame_of_toNum ha hb, pySame_of_toNum hb ha, pyGt_of_toNum ha hb,
    pyGt_of_toNum hb ha]
  by_cases hab : a = b
  · rw [if_pos (decide_eq_true hab), if_pos (decide_eq_true hab.symm)]
    by_cases hlt : w.origin < v.origin
    · exact .inl (congrArg some (decide_eq_true hlt))
    · refine .inr ⟨congrArg some (decide_eq_false hlt), ?_⟩
      cases eq_or_lt_of_le (not_lt.1 hlt) with
      | inl he => exact .inl ⟨decide_eq_true hab.symm, he.symm⟩
      | inr hgt => exact .inr (congrArg some (decide_eq_true hgt))
  · have hba : b ≠ a := Ne.symm hab
    simp only [decide_eq_true_eq, if_neg hab, if_neg hba]
    cases hgt : a.gt b with
    | true => exact .inl rfl
    | false => exact .inr ⟨rfl, .inr (congrArg some (PyNum.gt_of_not_gt hna hnb hab hgt))⟩

theorem gt_of_not_numeric {v w : WireVersion F} (hv : v.Numeric) (hw : ¬ w.Numeric) :
    v.gt w ≠ some true ∧ ¬ w.AtLeast v := by
  obtain ⟨a, ha, hna⟩ := hv
  rw [AtLeast, gt, gt]
  cases hb : w.ts.toNum with
  | none =>
    rw [pySame_of_toNum_none ha hb, pySame_of_none_toNum hb ha, pyGt_of_toNum_none ha hb,
      pyGt_of_none_toNum hb ha]
    simp
  | some b =>
    have hnan : b = .nan := by
      by_contra hnb
      exact hw ⟨b, hb, hnb⟩
    rw [pySame_of_toNum ha hb, pySame_of_toNum hb ha, pyGt_of_toNum ha hb, pyGt_of_toNum hb ha,
      hnan]
    have hnan' : PyNum.nan ≠ a := Ne.symm hna
    cases a <;> simp [PyNum.gt] at hna ⊢

end

end WireVersion

namespace WireStore

/-- The store has an entry that is not older than a version. -/
def Covers (s : WireStore F) (key : PyKey F) (v : WireVersion F) : Prop :=
  ∃ current, s.data.get key.number = some current ∧ current.version.AtLeast v

section
omit [FiniteFloat F] [UnicodeData] [UnicodeDigits]

theorem not_accepts_of_not_numeric {s : WireStore F} {key : PyKey F} {e : WireEntry F}
    (he : e.version.Numeric) (hget : s.data.get key.number = some current)
    (hc : ¬ current.version.Numeric) : ¬ s.Accepts key e :=
  fun h => (WireVersion.gt_of_not_numeric he hc).1 (h current hget)

/-- A numeric entry is merged into a store that has a numeric entry, or none, at its key. -/
theorem mergeEntry_numeric {s : WireStore F} {key : PyKey F} {e : WireEntry F}
    (he : e.version.Numeric)
    (hs : ∀ current, s.data.get key.number = some current → current.version.Numeric) :
    (s.mergeEntry key e).raised = false ∧ (s.mergeEntry key e).state.Covers key e.version := by
  have hown : ¬ (e.version.origin = s.nodeId ∧ e.version.ts.toNum = none) := by
    obtain ⟨a, ha, _⟩ := he
    intro h
    rw [ha] at h
    cases h.2
  constructor
  · rw [← Bool.not_eq_true, raised_mergeEntry_iff]
    intro h
    cases h with
    | inl h =>
      obtain ⟨current, hget, hgt⟩ := h
      cases WireVersion.gt_or_atLeast he (hs current hget) with
      | inl h => rw [h] at hgt; cases hgt
      | inr h => rw [h.1] at hgt; cases hgt
    | inr h => exact hown h.2
  · by_cases ha : s.Accepts key e
    · rw [mergeEntry_of_accepts ha, Covers, data_write]
      exact ⟨e, (Dict.get_set _ _ _ _).trans (if_pos rfl), WireVersion.atLeast_self he⟩
    · rw [mergeEntry_of_not_accepts ha]
      cases hget : s.data.get key.number with
      | none => exact absurd (fun c hc => by rw [hget] at hc; cases hc) ha
      | some current =>
        cases WireVersion.gt_or_atLeast he (hs current hget) with
        | inl h =>
          apply absurd _ ha
          intro c hc
          rw [hget] at hc
          cases hc
          exact h
        | inr h => exact ⟨current, hget, h.2⟩

end

end WireStore

def digestEntries (payload : PyValue F) : List (PyKey F × WireEntry F) :=
  (((getField storeField (.dict []) payload).bind dictItems).getD []).filterMap
    (fun p => (WireEntry.fromDict p.2).map (fun e => (p.1, e)))

/-- A gossip message of which every part can be read, with numbers as timestamps. -/
structure WellFormedGossip (m : Message F) : Prop where
  type : m.type = .str MessageType.GOSSIP
  membership : ∃ l, (getField membershipField (.list []) m.payload).bind pyIter = some l ∧
    ∀ v ∈ l, ∃ r, WireRecord.ofEntry v = some r
  store : ∃ l, (getField storeField (.dict []) m.payload).bind dictItems = some l ∧
    ∀ p ∈ l, ∃ e, WireEntry.fromDict p.2 = some e ∧ e.version.Numeric

namespace WireNode

/-- Handle messages, each with its readings of the clock. -/
def receive (n : WireNode F) (l : List ((ℕ → ℚ) × Message F)) : WireNode F :=
  l.foldl (fun n p => (n.onMessage p.1 p.2).node) n

/-- The id of the message is not among those that the node remembers. -/
def Fresh (n : WireNode F) (m : Message F) : Prop :=
  ∃ id, m.id.toKey = some id ∧ id.number ∉ n.seen

theorem store_onMessage {n : WireNode F} {m : Message F} (h : n.Fresh m) (clock : ℕ → ℚ) :
    ∃ n' : WireNode F, n'.store = n.store ∧
      (n.onMessage clock m).node.store = (n'.route clock m).node.store := by
  obtain ⟨id, hid, hseen⟩ := h
  have hhandle : ∀ n' : WireNode F,
      (n'.handle clock m).node.store = (n'.route clock m).node.store := by
    intro n'
    rw [handle]
    split <;> rfl
  cases hmid : m.id with
  | none => exact ⟨n, rfl, by rw [onMessage, hmid]; exact hhandle n⟩
  | _ =>
    refine ⟨n.remember id.number, rfl, ?_⟩
    rw [hmid] at hid
    simp only [onMessage, hmid, hid, if_neg hseen]
    exact hhandle _

theorem store_applyItem_of_isMember (n : WireNode F) {x : WireItem F} (h : x.IsMember) :
    (n.applyItem x).state.store = n.store := by
  cases x with
  | broken => rfl
  | member clock v => exact n.store_applyItem_member clock v
  | entry key v => exact h.elim

theorem applyItem_entry {n : WireNode F} {key : PyKey F} {v : PyValue F} {e : WireEntry F}
    (he : WireEntry.fromDict v = some e) :
    n.applyItem (.entry key v) =
      ⟨{ n with store := (n.store.mergeEntry key e).state },
        (n.store.mergeEntry key e).raised⟩ := by
  rw [applyItem, he]

theorem get_runItems_entries {l : List (PyKey F × PyValue F)} {k : PyKey F}
    (h : k ∉ l.map (fun p => p.1.number)) (n : WireNode F) :
    (runItems applyItem n (l.map (fun p => .entry p.1 p.2))).state.store.data.get k =
      n.store.data.get k := by
  refine runItems_preserves (fun n' : WireNode F => n'.store.data.get k = n.store.data.get k) ?_ rfl
  intro x hx n' hn'
  obtain ⟨p, hp, rfl⟩ := List.mem_map.1 hx
  have hk : k ≠ p.1.number := fun he => h (he ▸ List.mem_map_of_mem hp)
  rw [applyItem]
  cases WireEntry.fromDict p.2 with
  | none => exact hn'
  | some e => exact (n'.store.get_mergeEntry_ne e hk).trans hn'

/-- Numeric entries never replace one that is not numeric. -/
theorem get_runItems_of_not_numeric {l : List (PyKey F × PyValue F)} {k : PyKey F}
    (hl : ∀ p ∈ l, ∃ e, WireEntry.fromDict p.2 = some e ∧ e.version.Numeric) {n : WireNode F}
    (hget : n.store.data.get k = some current) (hc : ¬ current.version.Numeric) :
    (runItems applyItem n (l.map (fun p => .entry p.1 p.2))).state.store.data.get k =
      some current := by
  refine runItems_preserves (fun n' : WireNode F => n'.store.data.get k = some current) ?_ hget
  intro x hx n' hn'
  obtain ⟨p, hp, rfl⟩ := List.mem_map.1 hx
  obtain ⟨e, he, hnum⟩ := hl p hp
  rw [applyItem_entry he]
  by_cases hk : k = p.1.number
  · rw [hk] at hn' ⊢
    rw [WireStore.mergeEntry_of_not_accepts (WireStore.not_accepts_of_not_numeric hnum hn' hc)]
    exact hn'
  · exact (n'.store.get_mergeEntry_ne e hk).trans hn'

theorem covers_runItems {l : List (PyKey F × PyValue F)}
    (hl : ∀ p ∈ l, ∃ e, WireEntry.fromDict p.2 = some e ∧ e.version.Numeric)
    (hnodup : (l.map (fun p => p.1.number)).Nodup) {n : WireNode F}
    (hn : ∀ p ∈ l, ∀ current, n.store.data.get p.1.number = some current →
      current.version.Numeric) :
    ∀ p ∈ l, ∀ e, WireEntry.fromDict p.2 = some e →
      (runItems applyItem n (l.map (fun p => .entry p.1 p.2))).state.store.Covers p.1
        e.version := by
  induction l generalizing n with
  | nil =>
    intro p hp
    cases hp
  | cons q l ih =>
    rw [List.map_cons, List.nodup_cons] at hnodup
    obtain ⟨e, he, hnum⟩ := hl q List.mem_cons_self
    obtain ⟨hr, hcovers⟩ := WireStore.mergeEntry_numeric hnum (hn q List.mem_cons_self)
    have hraised : (n.applyItem (.entry q.1 q.2)).raised = false := by
      rw [applyItem_entry he]
      exact hr
    rw [List.map_cons, runItems_of_not_raised hraised, applyItem_entry he]
    intro p hp
    cases List.mem_cons.1 hp with
    | inl hpq =>
      rw [hpq]
      intro e' he'
      rw [he] at he'
      cases he'
      rw [WireStore.Covers, get_runItems_entries hnodup.1]
      exact hcovers
    | inr hp =>
      apply ih (fun p hp => hl p (List.mem_cons_of_mem _ hp)) hnodup.2 _ p hp
      intro p' hp' current hget
      have hne : p'.1.number ≠ q.1.number :=
        fun h => hnodup.1 (h ▸ List.mem_map_of_mem (f := fun p => p.1.number) hp')
      have hframe := n.store.get_mergeEntry_ne e hne
      exact hn p' (List.mem_cons_of_mem _ hp') current (hframe.symm.trans hget)

theorem store_route_of_wellFormed {m : Message F} (hm : WellFormedGossip m) (n : WireNode F)
    (clock : ℕ → ℚ) :
    ∃ n' : WireNode F, n'.store = n.store ∧
      (n.route clock m).node.store =
        (runItems applyItem n' (storeItems m.payload)).state.store := by
  obtain ⟨l, hl, hread⟩ := hm.membership
  have hitems : membershipItems clock m.payload = l.mapIdx (fun i v => .member (clock i) v) := by
    simp only [membershipItems, hl]
  have hnot : (runItems applyItem n (membershipItems clock m.payload)).raised = false := by
    apply runItems_not_raised
    intro x hx n'
    rw [hitems] at hx
    obtain ⟨i, hi, rfl⟩ := List.mem_mapIdx.1 hx
    obtain ⟨r, hr⟩ := hread _ (List.getElem_mem hi)
    rw [applyItem, hr]
  refine ⟨(runItems applyItem n (membershipItems clock m.payload)).state, ?_, ?_⟩
  · refine runItems_preserves (fun n' : WireNode F => n'.store = n.store) ?_ rfl
    intro x hx n' hn'
    rw [n'.store_applyItem_of_isMember (isMember_of_mem_membershipItems hx)]
    exact hn'
  · rw [route_gossip n clock hm.type, handleGossip, gossipItems, runItems_append hnot]

/-- A well-formed digest that comes after any messages is merged in full exactly when no entry
under its keys has a timestamp that is not a number. -/
theorem replicates_iff (n : WireNode F) (past : List ((ℕ → ℚ) × Message F)) (clock : ℕ → ℚ)
    {m : Message F} (hm : WellFormedGossip m) (hfresh : (n.receive past).Fresh m) :
    (∀ p ∈ digestEntries m.payload,
        ((n.receive past).onMessage clock m).node.store.Covers p.1 p.2.version) ↔
      ∀ p ∈ digestEntries m.payload, ∀ current,
        (n.receive past).store.data.get p.1.number = some current → current.version.Numeric := by
  obtain ⟨n₁, hn₁, hstep⟩ := store_onMessage hfresh clock
  obtain ⟨n₂, hn₂, hroute⟩ := store_route_of_wellFormed hm n₁ clock
  obtain ⟨l, hl, hread⟩ := hm.store
  have hstore : n₂.store = (n.receive past).store := hn₂.trans hn₁
  have hitems : storeItems m.payload = l.map (fun p => .entry p.1 p.2) := by
    simp only [storeItems, hl]
  have hnodup : (l.map (fun p => p.1.number)).Nodup := nodup_of_dictItems hl
  have hmem : ∀ p : PyKey F × WireEntry F, p ∈ digestEntries m.payload ↔
      ∃ v, (p.1, v) ∈ l ∧ WireEntry.fromDict v = some p.2 := by
    intro p
    rw [digestEntries, hl, Option.getD_some, List.mem_filterMap]
    constructor
    · rintro ⟨q, hq, he⟩
      obtain ⟨e, he, hp⟩ := Option.map_eq_some_iff.1 he
      rw [← hp]
      exact ⟨q.2, hq, he⟩
    · rintro ⟨v, hv, he⟩
      exact ⟨(p.1, v), hv, Option.map_eq_some_iff.2 ⟨p.2, he, rfl⟩⟩
  rw [hstep, hroute, hitems, ← hstore]
  constructor
  · intro h p hp current hget
    by_contra hc
    obtain ⟨current', hget', hge⟩ := h p hp
    rw [get_runItems_of_not_numeric hread hget hc] at hget'
    cases hget'
    obtain ⟨v, hv, he⟩ := (hmem p).1 hp
    obtain ⟨e, he', hnum⟩ := hread _ hv
    rw [he] at he'
    cases he'
    exact (WireVersion.gt_of_not_numeric hnum hc).2 hge
  · intro h p hp
    obtain ⟨v, hv, he⟩ := (hmem p).1 hp
    apply covers_runItems hread hnodup _ _ hv _ he
    intro q hq current hget
    obtain ⟨e, he', _⟩ := hread q hq
    exact h (q.1, e) ((hmem _).2 ⟨q.2, hq, he'⟩) current hget

end WireNode

end

/-- A gossip message whose store digest has one entry. -/
def entryGossip (id key : PyStr) (ts : PyValue ℕ) : Message ℕ :=
  ⟨.str MessageType.GOSSIP, .str [120],
    writeItems [(storeField, writeItems [(key,
      writeItems [(valueField, .int 7), (timeField, ts), (originField, .str [98])])])],
    .none, .str id, .int 0⟩

theorem wellFormed_entryGossip [UnicodeData] [UnicodeDigits] (id key : PyStr) (i : ℤ) :
    WellFormedGossip (entryGossip id key (.int i)) where
  type := rfl
  membership := ⟨[], rfl, fun v hv => by cases hv⟩
  store := by
    refine ⟨[(.str key, _)], rfl, ?_⟩
    intro p hp
    rw [List.mem_singleton.1 hp]
    exact ⟨_, rfl, _, rfl, fun h => by cases h⟩

/-- A timestamp that is a string stops the replication of its key. -/
theorem poisoned_key_not_replicated :
    ¬ ∃ (_ : UnicodeData) (_ : UnicodeDigits), ∀ (n : WireNode ℕ)
      (past : List ((ℕ → ℚ) × Message ℕ)) (clock : ℕ → ℚ) (m : Message ℕ), WellFormedGossip m →
      (n.receive past).Fresh m → ∀ p ∈ digestEntries m.payload,
        ((n.receive past).onMessage clock m).node.store.Covers p.1 p.2.version := by
  intro ⟨_, _, hall⟩
  have hcovers := hall (.init [110]) [(fun _ => 0, entryGossip [49] [107] (.str [120]))]
    (fun _ => 0) (entryGossip [50] [107] (.int 1)) (wellFormed_entryGossip [50] [107] 1)
    ⟨.str [50], rfl, fun h => by cases List.mem_singleton.1 h⟩
    (.str [107], ⟨.int 7, ⟨.int 1, [98]⟩, false⟩) List.mem_cons_self
  obtain ⟨current, hget, hge⟩ := hcovers
  cases hget
  cases hge with
  | inl h => cases h.1
  | inr h => cases h

/-- A poisoned key does not stop the replication of another one. -/
theorem other_key_replicated :
    ∃ (_ : UnicodeData) (_ : UnicodeDigits),
      ∀ p ∈ digestEntries (entryGossip [50] [107] (.int 1)).payload, (((WireNode.init [110]).receive
        [(fun _ => 0, entryGossip [49] [106] (.str [120]))]).onMessage (fun _ => 0)
          (entryGossip [50] [107] (.int 1))).node.store.Covers p.1 p.2.version := by
  have data : UnicodeData := ⟨fun _ => false, fun _ _ => rfl, fun _ _ => rfl⟩
  have digits : UnicodeDigits := ⟨fun _ => none⟩
  refine ⟨data, digits, ?_⟩
  apply (WireNode.replicates_iff (.init [110])
    [(fun _ => 0, entryGossip [49] [106] (.str [120]))] (fun _ => 0)
    (wellFormed_entryGossip [50] [107] 1)
    ⟨.str [50], rfl, fun h => by cases List.mem_singleton.1 h⟩).2
  intro p hp current hget
  rw [List.mem_singleton.1 (show p ∈ [_] from hp)] at hget
  cases hget

end Suprime
