import Suprime.Rga

namespace Suprime
set_option autoImplicit true

variable {ν α : Type} [LinearOrder ν] [Inhabited ν]

/-- The inserts that were ever made: id, value and predecessor. -/
abbrev InsertLog (ν α : Type) := List (ElemId ν × α × ElemId ν)

/-- No id is minted twice, and an element is inserted after one of smaller id. -/
structure InsertLog.Ok (log : InsertLog ν α) : Prop where
  unique : (log.map Prod.fst).Nodup
  after_lt : ∀ p ∈ log, p.2.2 < p.1

section
omit [Inhabited ν]

theorem InsertLog.Ok.eq_of_id {log : InsertLog ν α} (h : log.Ok) (hp : p ∈ log) (hq : q ∈ log)
    (hi : p.1 = q.1) : p = q :=
  List.inj_on_of_nodup_map h.unique hp hq hi

end

def ElemsLogged (log : InsertLog ν α) (elems : Dict (ElemId ν) (Elem ν α)) : Prop :=
  ∀ i e, elems.get i = some e → e.id = i ∧ (i, e.value, e.after) ∈ log

namespace RGA

/-- `c` is an element of the replica with predecessor `p`. -/
def HangsBelow (r : RGA ν α) (c p : ElemId ν) : Prop :=
  ∃ e, r.elems.get c = some e ∧ e.after = p

section
omit [Inhabited ν]

theorem hangsBelow_unique {r : RGA ν α} (h : r.HangsBelow c p) (h' : r.HangsBelow c q) :
    p = q := by
  obtain ⟨e, he, rfl⟩ := h
  obtain ⟨e', he', rfl⟩ := h'
  rw [he, Option.some.injEq] at he'
  rw [he']

end

/-- The representation invariant of a replica whose elements were logged. -/
structure Ok (log : InsertLog ν α) (r : RGA ν α) : Prop where
  logged : ElemsLogged log r.elems
  counter : ∀ i e, r.elems.get i = some e → i.counter ≤ r.counter
  nonneg : 0 ≤ r.counter
  children : ∀ p c, c ∈ r.childrenOf p ↔ r.HangsBelow c p
  sorted : ∀ p, (r.childrenOf p).Pairwise (fun a b => b < a)

theorem Ok.init (n : ν) : (RGA.init n : RGA ν α).Ok log where
  logged i e h := by cases h
  counter i e h := by cases h
  nonneg := le_rfl
  children p c := by
    simp only [childrenOf, HangsBelow, RGA.init, Dict.get_set, Dict.get_empty]
    by_cases hr : p = ElemId.ROOT <;> simp [hr]
  sorted p := by
    simp only [childrenOf, RGA.init, Dict.get_set, Dict.get_empty]
    by_cases hr : p = ElemId.ROOT <;> simp [hr]

section
omit [Inhabited ν]

theorem Ok.mono {log log' : InsertLog ν α} {r : RGA ν α} (h : r.Ok log)
    (hl : ∀ p ∈ log, p ∈ log') : r.Ok log' where
  logged i e he := ⟨(h.logged i e he).1, hl _ (h.logged i e he).2⟩
  counter := h.counter
  nonneg := h.nonneg
  children := h.children
  sorted := h.sorted

theorem applyInsert_of_some {r : RGA ν α} (h : r.elems.get eid = some e) (value : α)
    (after : ElemId ν) : r.applyInsert eid value after = r := by
  simp only [applyInsert, h]

theorem elems_applyInsert {r : RGA ν α} (h : r.elems.get eid = none) (value : α)
    (after i : ElemId ν) : (r.applyInsert eid value after).elems.get i =
      if i = eid then some ⟨eid, value, after, false⟩ else r.elems.get i := by
  simp only [applyInsert, h, Dict.get_set]

theorem counter_applyInsert {r : RGA ν α} (h : r.elems.get eid = none) (value : α)
    (after : ElemId ν) : (r.applyInsert eid value after).counter = max r.counter eid.counter := by
  simp only [applyInsert, h]

theorem childrenOf_applyInsert {r : RGA ν α} (h : r.elems.get eid = none) (value : α)
    (after p : ElemId ν) : (r.applyInsert eid value after).childrenOf p =
      if p = after then (r.childrenOf after ++ [eid]).insertionSort (fun a b => b ≤ a)
      else r.childrenOf p := by
  simp only [applyInsert, h]
  rw [childrenOf]
  simp only [Dict.getD_setDefault, Dict.get_set]
  by_cases hp : p = after
  · rw [if_pos hp, if_pos hp, Option.getD_some]
  · rw [if_neg hp, if_neg hp, childrenOf]

theorem nodeId_applyInsert (r : RGA ν α) (eid : ElemId ν) (value : α) (after : ElemId ν) :
    (r.applyInsert eid value after).nodeId = r.nodeId := by
  cases h : r.elems.get eid <;> simp only [applyInsert, h]

end

/-- The sibling lists and the recorded predecessors say the same. -/
def Linked (r : RGA ν α) : Prop := ∀ p c, c ∈ r.childrenOf p ↔ r.HangsBelow c p

section
omit [Inhabited ν]

theorem Linked.applyInsert {r : RGA ν α} (h : r.Linked) (eid : ElemId ν) (value : α)
    (after : ElemId ν) : (r.applyInsert eid value after).Linked := by
  cases hk : r.elems.get eid with
  | some e =>
    rw [applyInsert_of_some hk]
    exact h
  | none =>
    intro p c
    have hnot : ¬ r.HangsBelow eid p := by
      rintro ⟨e, he, _⟩
      rw [hk] at he
      cases he
    simp only [childrenOf_applyInsert hk, HangsBelow, elems_applyInsert hk]
    by_cases hc : c = eid
    · subst hc
      have hno := mt (h p c).1 hnot
      by_cases hp : p = after
      · simp [hp]
      · simp [hp, Ne.symm hp, hno]
    · by_cases hp : p = after
      · subst hp
        simp only [if_true, List.mem_insertionSort, List.mem_append,
          List.mem_singleton, hc, or_false]
        exact h p c
      · simp only [if_neg hp, if_neg hc]
        exact h p c

theorem Ok.applyInsert {r : RGA ν α} {after : ElemId ν} (h : r.Ok log)
    (hi : (eid, value, after) ∈ log) :
    (r.applyInsert eid value after).Ok log := by
  cases hk : r.elems.get eid with
  | some e =>
    rw [applyInsert_of_some hk]
    exact h
  | none =>
    refine ⟨?_, ?_, ?_, ?_, ?_⟩
    · intro i e he
      rw [elems_applyInsert hk] at he
      by_cases hi' : i = eid
      · rw [if_pos hi'] at he
        cases he
        subst hi'
        exact ⟨rfl, hi⟩
      · rw [if_neg hi'] at he
        exact h.logged i e he
    · intro i e he
      rw [counter_applyInsert hk]
      rw [elems_applyInsert hk] at he
      by_cases hi' : i = eid
      · subst hi'
        exact le_max_right _ _
      · rw [if_neg hi'] at he
        exact (h.counter i e he).trans (le_max_left _ _)
    · rw [counter_applyInsert hk]
      exact h.nonneg.trans (le_max_left _ _)
    · exact Linked.applyInsert h.children eid value after
    · intro p
      rw [childrenOf_applyInsert hk]
      by_cases hp : p = after
      · rw [if_pos hp]
        have hno : eid ∉ r.childrenOf after := by
          intro hm
          obtain ⟨e, he, _⟩ := (h.children after eid).1 hm
          rw [hk] at he
          cases he
        have hnd : (r.childrenOf after ++ [eid]).Nodup := by
          apply List.Nodup.append
          · exact (h.sorted after).imp (fun hab => ne_of_gt hab)
          · exact List.nodup_singleton _
          · simpa using hno
        have hsorted := List.pairwise_insertionSort (fun a b : ElemId ν => b ≤ a)
          (r.childrenOf after ++ [eid])
        have hnd' := (List.perm_insertionSort (fun a b : ElemId ν => b ≤ a) _).nodup_iff.2 hnd
        exact (hsorted.and hnd').imp (fun hab => lt_of_le_of_ne hab.1 (Ne.symm hab.2))
      · rw [if_neg hp]
        exact h.sorted p

theorem elems_markDeleted (r : RGA ν α) (eid i : ElemId ν) :
    (r.markDeleted eid).elems.get i =
      if i = eid then (r.elems.get i).map (fun e => { e with deleted := true })
      else r.elems.get i := by
  cases hk : r.elems.get eid with
  | none =>
    simp only [markDeleted, hk]
    by_cases hi : i = eid
    · rw [if_pos hi, hi, hk, Option.map_none]
    · rw [if_neg hi]
  | some e =>
    simp only [markDeleted, hk, Dict.get_set]
    by_cases hi : i = eid
    · rw [if_pos hi, if_pos hi, hi, hk, Option.map_some]
    · rw [if_neg hi, if_neg hi]

theorem markDeleted_fields (r : RGA ν α) (eid : ElemId ν) :
    (r.markDeleted eid).nodeId = r.nodeId ∧ (r.markDeleted eid).counter = r.counter ∧
      (r.markDeleted eid).children = r.children := by
  cases h : r.elems.get eid <;> simp only [markDeleted, h, and_self]

theorem elems_markDeleted_cases {r : RGA ν α} (h : (r.markDeleted eid).elems.get i = some e) :
    ∃ e', r.elems.get i = some e' ∧ e'.id = e.id ∧ e'.value = e.value ∧ e'.after = e.after := by
  rw [elems_markDeleted] at h
  by_cases hi : i = eid
  · rw [if_pos hi] at h
    obtain ⟨e', he', rfl⟩ := Option.map_eq_some_iff.1 h
    exact ⟨e', he', rfl, rfl, rfl⟩
  · rw [if_neg hi] at h
    exact ⟨e, h, rfl, rfl, rfl⟩

theorem hangsBelow_markDeleted (r : RGA ν α) (eid c p : ElemId ν) :
    (r.markDeleted eid).HangsBelow c p ↔ r.HangsBelow c p := by
  constructor
  · rintro ⟨e, he, rfl⟩
    obtain ⟨e', he', _, _, ha⟩ := elems_markDeleted_cases he
    exact ⟨e', he', ha⟩
  · rintro ⟨e, he, rfl⟩
    simp only [HangsBelow, elems_markDeleted]
    by_cases hc : c = eid
    · exact ⟨{ e with deleted := true }, by rw [if_pos hc, he, Option.map_some], rfl⟩
    · exact ⟨e, by rw [if_neg hc, he], rfl⟩

theorem childrenOf_markDeleted (r : RGA ν α) (eid p : ElemId ν) :
    (r.markDeleted eid).childrenOf p = r.childrenOf p := by
  obtain ⟨_, _, hch⟩ := r.markDeleted_fields eid
  rw [childrenOf, hch, childrenOf]

theorem Linked.markDeleted {r : RGA ν α} (h : r.Linked) (eid : ElemId ν) :
    (r.markDeleted eid).Linked := by
  intro p c
  rw [childrenOf_markDeleted, hangsBelow_markDeleted]
  exact h p c

theorem Ok.markDeleted {r : RGA ν α} (h : r.Ok log) (eid : ElemId ν) :
    (r.markDeleted eid).Ok log := by
  obtain ⟨_, hcount, _⟩ := r.markDeleted_fields eid
  refine ⟨?_, ?_, ?_, ?_, ?_⟩
  · intro i e he
    obtain ⟨e', he', hid, hval, haft⟩ := elems_markDeleted_cases he
    rw [← hid, ← hval, ← haft]
    exact h.logged i e' he'
  · intro i e he
    obtain ⟨e', he', _⟩ := elems_markDeleted_cases he
    rw [hcount]
    exact h.counter i e' he'
  · rw [hcount]
    exact h.nonneg
  · exact Linked.markDeleted h.children eid
  · intro p
    rw [childrenOf_markDeleted]
    exact h.sorted p

theorem mergeElem_fst (r : RGA ν α) (oe : Elem ν α) (eid : ElemId ν) :
    (r.mergeElem oe eid).1 =
      if oe.deleted && (r.applyInsert eid oe.value oe.after).isShown eid then
        (r.applyInsert eid oe.value oe.after).markDeleted eid
      else r.applyInsert eid oe.value oe.after := by
  have hr : (if (r.elems.get eid).isSome then r else r.applyInsert eid oe.value oe.after) =
      r.applyInsert eid oe.value oe.after := by
    cases hk : r.elems.get eid with
    | none => rfl
    | some e => exact (applyInsert_of_some hk _ _).symm
  simp only [mergeElem, hr]
  split <;> rfl

theorem Linked.mergeElem {r : RGA ν α} (h : r.Linked) (oe : Elem ν α) (eid : ElemId ν) :
    (r.mergeElem oe eid).1.Linked := by
  rw [mergeElem_fst]
  split
  · exact (h.applyInsert eid oe.value oe.after).markDeleted eid
  · exact h.applyInsert eid oe.value oe.after

theorem Linked.mergeIds {r : RGA ν α} (h : r.Linked) (other : Dict (ElemId ν) (Elem ν α))
    (ids : List (ElemId ν)) : (r.mergeIds other ids).1.Linked := by
  induction ids generalizing r with
  | nil => exact h
  | cons eid ids ih =>
    cases hk : other.get eid with
    | none =>
      simp only [RGA.mergeIds, hk]
      exact ih h
    | some oe =>
      simp only [RGA.mergeIds, hk]
      exact ih (h.mergeElem oe eid)

theorem Ok.mergeElem {r : RGA ν α} (h : r.Ok log) (hi : (eid, oe.value, oe.after) ∈ log) :
    (r.mergeElem oe eid).1.Ok log := by
  rw [mergeElem_fst]
  split
  · exact (h.applyInsert hi).markDeleted eid
  · exact h.applyInsert hi

theorem Ok.mergeIds {r : RGA ν α} {other : Dict (ElemId ν) (Elem ν α)} (h : r.Ok log)
    (ho : ElemsLogged log other) (ids : List (ElemId ν)) : (r.mergeIds other ids).1.Ok log := by
  induction ids generalizing r with
  | nil => exact h
  | cons eid ids ih =>
    cases hk : other.get eid with
    | none =>
      simp only [RGA.mergeIds, hk]
      exact ih h
    | some oe =>
      simp only [RGA.mergeIds, hk]
      exact ih (h.mergeElem (ho eid oe hk).2)

theorem Ok.merge {r : RGA ν α} {other : Dict (ElemId ν) (Elem ν α)} (h : r.Ok log)
    (ho : ElemsLogged log other) : (r.merge other).1.Ok log :=
  h.mergeIds ho _

theorem hangsBelow_lt {r : RGA ν α} (h : r.Ok log) (hl : log.Ok) (hc : r.HangsBelow c p) :
    p < c := by
  obtain ⟨e, he, rfl⟩ := hc
  exact hl.after_lt _ (h.logged c e he).2

end

/-- The order of the document, which depends on the inserts alone. -/
def DocBefore (log : InsertLog ν α) (x y : ElemId ν) : Prop :=
  Before (fun c p => ∃ v, (c, v, p) ∈ log) .ROOT x y

theorem DocBefore.asymm {log : InsertLog ν α} (hl : log.Ok) (x y : ElemId ν)
    (h : DocBefore log x y) : ¬ DocBefore log y x := by
  apply Before.asymm ?_ ?_ h
  · rintro c p ⟨v, hv⟩
    exact hl.after_lt _ hv
  · rintro c p q ⟨v, hv⟩ ⟨w, hw⟩
    cases hl.eq_of_id hv hw rfl
    rfl

/-- The walk ends in every state that keeps the invariant, and lists in the order of the tree the
shown elements that are connected to the root. -/
theorem visibleIds_before {r : RGA ν α} (h : r.Ok log) (hl : log.Ok) :
    ∃ ids, r.visibleIds = some ids ∧ ids.Pairwise (Before r.HangsBelow .ROOT) ∧
      ∀ x, x ∈ ids ↔ r.isShown x = true ∧ ∃ w, w ≠ [] ∧ Path r.HangsBelow .ROOT w x := by
  have hlt : ∀ p, ∀ c ∈ r.childrenOf p, p < c ∧ c ∈ r.elems.keys.toFinset := by
    intro p c hc
    have hb := (h.children p c).1 hc
    have hpc := hangsBelow_lt h hl hb
    obtain ⟨e, he, _⟩ := hb
    exact ⟨hpc, List.mem_toFinset.2 (Dict.mem_keys.2 ⟨e, he⟩)⟩
  have hfuel : (r.elems.keys.toFinset.filter (ElemId.ROOT < ·)).card <
      r.elems.items.length + 1 := by
    have hcard : r.elems.keys.toFinset.card ≤ r.elems.items.length := by
      simpa [Dict.keys] using r.elems.keys.toFinset_card_le
    have hfilter := Finset.card_filter_le r.elems.keys.toFinset (ElemId.ROOT < ·)
    omega
  obtain ⟨ids, hids⟩ := walk_isSome r.childrenOf r.isShown _ hlt .ROOT _ hfuel
  exact ⟨ids, hids, pairwise_walk h.children h.sorted hids, fun x => mem_walk h.children hids⟩

theorem visibleIds_spec {r : RGA ν α} (h : r.Ok log) (hl : log.Ok) :
    ∃ ids, r.visibleIds = some ids ∧ ids.Pairwise (DocBefore log) ∧
      ∀ x, x ∈ ids ↔ r.isShown x = true ∧ ∃ w, w ≠ [] ∧ Path r.HangsBelow .ROOT w x := by
  obtain ⟨ids, hids, hbefore, hmem⟩ := visibleIds_before h hl
  refine ⟨ids, hids, ?_, hmem⟩
  apply hbefore.imp
  rintro x y ⟨lx, ly, hx, hy, hlex⟩
  have hmono : ∀ c p, r.HangsBelow c p → ∃ v, (c, v, p) ∈ log := by
    rintro c p ⟨e, he, rfl⟩
    exact ⟨e.value, (h.logged c e he).2⟩
  exact ⟨lx, ly, hx.mono hmono, hy.mono hmono, hlex⟩

end RGA

end Suprime
