import Mathlib.Data.String.Basic
import Suprime.Run
import Suprime.RgaOrder

namespace Suprime
set_option autoImplicit true

variable {ν α : Type} [LinearOrder ν] [Inhabited ν]

/-- An edit that a replica can have incorporated. -/
inductive Edit (ν : Type)
  | insert (i : ElemId ν)
  | delete (i : ElemId ν)
  deriving DecidableEq

/-- Which elements are present, and of those which are deleted. -/
def flagOf (elems : Dict (ElemId ν) (Elem ν α)) (i : ElemId ν) : Option Bool :=
  (elems.get i).map Elem.deleted

def joinFlag : Option Bool → Option Bool → Option Bool
  | none, b => b
  | some a, none => some a
  | some a, some b => some (a || b)

namespace RGA

section
omit [Inhabited ν]

theorem isShown_iff (r : RGA ν α) (i : ElemId ν) :
    r.isShown i = true ↔ flagOf r.elems i = some false := by
  unfold isShown flagOf
  cases r.elems.get i with
  | none => simp
  | some e => cases hd : e.deleted <;> simp [hd]

theorem flagOf_applyInsert (r : RGA ν α) (eid : ElemId ν) (value : α) (after i : ElemId ν) :
    flagOf (r.applyInsert eid value after).elems i =
      if i = eid then joinFlag (flagOf r.elems i) (some false) else flagOf r.elems i := by
  cases hk : r.elems.get eid with
  | some e =>
    rw [applyInsert_of_some hk]
    by_cases hi : i = eid
    · simp [flagOf, hi, hk, joinFlag]
    · simp [hi]
  | none =>
    simp only [flagOf, elems_applyInsert hk]
    by_cases hi : i = eid
    · simp [hi, hk, joinFlag]
    · simp [hi]

theorem flagOf_markDeleted (r : RGA ν α) (eid i : ElemId ν) :
    flagOf (r.markDeleted eid).elems i =
      if i = eid then (flagOf r.elems i).map (fun _ => true) else flagOf r.elems i := by
  simp only [flagOf, elems_markDeleted]
  by_cases hi : i = eid
  · simp [hi, Function.comp_def]
  · simp [hi]

theorem flagOf_mergeElem (r : RGA ν α) (oe : Elem ν α) (eid i : ElemId ν) :
    flagOf (r.mergeElem oe eid).1.elems i =
      if i = eid then joinFlag (flagOf r.elems i) (some oe.deleted) else flagOf r.elems i := by
  have hins := r.flagOf_applyInsert eid oe.value oe.after
  rw [mergeElem_fst]
  by_cases hi : i = eid
  · subst hi
    have hshown := (r.applyInsert i oe.value oe.after).isShown_iff i
    rw [hins i, if_pos rfl] at hshown
    rw [if_pos rfl]
    split
    · rename_i hc
      rw [flagOf_markDeleted, if_pos rfl, hins i, if_pos rfl]
      rw [Bool.and_eq_true] at hc
      cases hf : flagOf r.elems i <;> simp [joinFlag, hc.1]
    · rename_i hc
      rw [hins i, if_pos rfl]
      cases hd : oe.deleted with
      | false => rfl
      | true =>
        rw [hd, Bool.true_and] at hc
        have hns := mt hshown.2 hc
        cases hf : flagOf r.elems i with
        | none => simp [hf, joinFlag] at hns
        | some b => cases b <;> simp_all [joinFlag]
  · rw [if_neg hi]
    split
    · rw [flagOf_markDeleted, if_neg hi, hins i, if_neg hi]
    · rw [hins i, if_neg hi]

end

theorem joinFlag_idem (a b : Option Bool) : joinFlag (joinFlag a b) b = joinFlag a b := by
  cases a with
  | none => cases b <;> simp [joinFlag]
  | some a => cases b <;> simp [joinFlag]

theorem joinFlag_none (a : Option Bool) : joinFlag a none = a := by
  cases a <;> rfl

section
omit [Inhabited ν]

theorem flagOf_mergeIds (r : RGA ν α) (other : Dict (ElemId ν) (Elem ν α))
    (ids : List (ElemId ν)) (i : ElemId ν) :
    flagOf (r.mergeIds other ids).1.elems i =
      if i ∈ ids then joinFlag (flagOf r.elems i) (flagOf other i) else flagOf r.elems i := by
  induction ids generalizing r with
  | nil => simp [mergeIds]
  | cons eid ids ih =>
    cases hk : other.get eid with
    | none =>
      simp only [mergeIds, hk, ih, List.mem_cons]
      by_cases hi : i = eid
      · have hn : flagOf other i = none := by simp [flagOf, hi, hk]
        simp [hn, joinFlag_none]
      · simp [hi]
    | some oe =>
      simp only [mergeIds, hk, ih, List.mem_cons, flagOf_mergeElem]
      by_cases hi : i = eid
      · have hs : flagOf other i = some oe.deleted := by simp [flagOf, hi, hk]
        simp [hi, ← hs, joinFlag_idem]
      · simp [hi]

theorem flagOf_merge (r : RGA ν α) (other : Dict (ElemId ν) (Elem ν α)) (i : ElemId ν) :
    flagOf (r.merge other).1.elems i = joinFlag (flagOf r.elems i) (flagOf other i) := by
  rw [merge, flagOf_mergeIds]
  by_cases hi : i ∈ other.keys.insertionSort (· ≤ ·)
  · rw [if_pos hi]
  · rw [if_neg hi]
    have hn : flagOf other i = none := by
      rw [List.mem_insertionSort, Dict.mem_keys, not_exists] at hi
      simp only [flagOf, Option.map_eq_none_iff]
      exact Option.eq_none_iff_forall_ne_some.2 hi
    rw [hn, joinFlag_none]

theorem nodeId_mergeIds (r : RGA ν α) (other : Dict (ElemId ν) (Elem ν α))
    (ids : List (ElemId ν)) : (r.mergeIds other ids).1.nodeId = r.nodeId ∧
      r.counter ≤ (r.mergeIds other ids).1.counter := by
  induction ids generalizing r with
  | nil => exact ⟨rfl, le_rfl⟩
  | cons eid ids ih =>
    cases hk : other.get eid with
    | none =>
      simp only [mergeIds, hk]
      exact ih r
    | some oe =>
      simp only [mergeIds, hk]
      have hins : (r.applyInsert eid oe.value oe.after).nodeId = r.nodeId ∧
          r.counter ≤ (r.applyInsert eid oe.value oe.after).counter := by
        refine ⟨r.nodeId_applyInsert _ _ _, ?_⟩
        cases hr : r.elems.get eid with
        | none =>
          rw [counter_applyInsert hr]
          exact le_max_left _ _
        | some e => rw [applyInsert_of_some hr]
      have helem : (r.mergeElem oe eid).1.nodeId = r.nodeId ∧
          r.counter ≤ (r.mergeElem oe eid).1.counter := by
        rw [mergeElem_fst]
        split
        · obtain ⟨hn, hc, _⟩ := (r.applyInsert eid oe.value oe.after).markDeleted_fields eid
          rw [hn, hc]
          exact hins
        · exact hins
      obtain ⟨hn, hc⟩ := ih (r.mergeElem oe eid).1
      exact ⟨hn.trans helem.1, helem.2.trans hc⟩

theorem Ok.nextId {r : RGA ν α} (h : r.Ok log) : r.nextId.2.Ok log where
  logged := h.logged
  counter i e he := (h.counter i e he).trans (Int.le_add_one le_rfl)
  nonneg := h.nonneg.trans (Int.le_add_one le_rfl)
  children := h.children
  sorted := h.sorted

end

/-- A local insert mints the next id and puts the element after the root or a shown element. -/
theorem insert_spec {r r' : RGA ν α} (h : r.insert index value = some (eid, r')) :
    ∃ ids after, r.visibleIds = some ids ∧ (after = .ROOT ∨ after ∈ ids) ∧
      eid = ⟨r.counter + 1, r.nodeId⟩ ∧
      r' = r.nextId.2.applyInsert eid value after := by
  obtain ⟨ids, hids, h⟩ := Option.bind_eq_some_iff.1 h
  obtain ⟨after, ha, h⟩ := Option.bind_eq_some_iff.1 h
  obtain ⟨rfl, rfl⟩ := Prod.mk.inj (Option.some.inj h)
  refine ⟨ids, after, hids, ?_, rfl, rfl⟩
  unfold predecessor at ha
  by_cases hi : index > 0
  · rw [if_pos hi] at ha
    exact .inr (List.mem_of_getElem? ha)
  · rw [if_neg hi] at ha
    exact .inl (Option.some.inj ha).symm

theorem append_spec {r r' : RGA ν α} (h : r.append value = some (eid, r')) :
    ∃ index, r.insert index value = some (eid, r') := by
  obtain ⟨ids, _, h⟩ := Option.bind_eq_some_iff.1 h
  exact ⟨_, h⟩

theorem delete_spec {r r' : RGA ν α} (h : r.delete index = some (o, r')) :
    (o = none ∧ r' = r) ∨
      ∃ ids eid, r.visibleIds = some ids ∧ eid ∈ ids ∧ o = some eid ∧ r' = r.markDeleted eid := by
  obtain ⟨ids, hids, h⟩ := Option.bind_eq_some_iff.1 h
  by_cases hi : index < 0 ∨ index ≥ ids.length
  · rw [if_pos hi] at h
    obtain ⟨rfl, rfl⟩ := Prod.mk.inj (Option.some.inj h)
    exact .inl ⟨rfl, rfl⟩
  · rw [if_neg hi] at h
    obtain ⟨eid, he, h⟩ := Option.bind_eq_some_iff.1 h
    obtain ⟨rfl, rfl⟩ := Prod.mk.inj (Option.some.inj h)
    exact .inr ⟨ids, eid, hids, List.mem_of_getElem? he, rfl, rfl⟩

section
omit [Inhabited ν]

theorem elemsOfDigest_digest {r : RGA ν α} (h : ∀ i e, r.elems.get i = some e → e.id = i) :
    elemsOfDigest r.digest = r.elems := by
  have hl : r.digest.map (fun raw => (raw.1, (⟨raw.1, raw.2.1, raw.2.2.1, raw.2.2.2⟩ : Elem ν α)))
      = r.elems.items := by
    simp only [digest, Dict.values, List.map_map]
    conv_rhs => rw [← List.map_id r.elems.items]
    apply List.map_congr_left
    rintro ⟨k, e⟩ hp
    have hid := h k e (Dict.mem_items.1 hp)
    subst hid
    rfl
  rw [elemsOfDigest, hl, Dict.ofList_items]

end

end RGA

/-- The state of a replica at some moment, as another replica or a digest can carry it. -/
structure SharedState (ν α : Type) where
  elems : Dict (ElemId ν) (Elem ν α)
  digest : List (ElemId ν × α × ElemId ν × Bool)
  known : List (Edit ν)

/-- Replicas of any number of nodes and every state that one of them has ever shared. The last
two fields are history: the edits a replica has incorporated, and every insert. -/
structure RgaSwarm (ν α : Type) where
  replica : ν → RGA ν α
  shared : List (SharedState ν α)
  known : ν → List (Edit ν)
  log : InsertLog ν α

inductive RgaAction (ν α : Type)
  | insert (n : ν) (index : ℤ) (value : α)
  | append (n : ν) (value : α)
  | delete (n : ν) (index : ℤ)
  | share (n : ν)
  | merge (n : ν) (i : ℕ)
  | applyDigest (n : ν) (i : ℕ)

namespace RgaSwarm

def init : RgaSwarm ν α := ⟨fun n => .init n, [], fun _ => [], []⟩

/-- Node `n` inserted a new element. -/
def inserted (s : RgaSwarm ν α) (n : ν) (eid : ElemId ν) (r : RGA ν α) : RgaSwarm ν α :=
  { s with
    replica := Function.update s.replica n r
    known := Function.update s.known n (s.known n ++ [.insert eid])
    log := s.log ++ ((r.elems.get eid).map (fun e => (eid, e.value, e.after))).toList }

/-- Node `n` incorporated the edits behind a shared state. -/
def incorporated (s : RgaSwarm ν α) (n : ν) (r : RGA ν α) (known : List (Edit ν)) :
    RgaSwarm ν α :=
  { s with
    replica := Function.update s.replica n r
    known := Function.update s.known n (s.known n ++ known) }

def step (s : RgaSwarm ν α) : RgaAction ν α → Option (RgaSwarm ν α)
  | .insert n index value => do
    let (eid, r) ← (s.replica n).insert index value
    some (s.inserted n eid r)
  | .append n value => do
    let (eid, r) ← (s.replica n).append value
    some (s.inserted n eid r)
  | .delete n index => do
    let (eid, r) ← (s.replica n).delete index
    some (s.incorporated n r (eid.map Edit.delete).toList)
  | .share n =>
    let r := s.replica n
    some { s with shared := s.shared ++ [⟨r.elems, r.digest, s.known n⟩] }
  | .merge n i => do
    let x ← s.shared[i]?
    some (s.incorporated n ((s.replica n).merge x.elems).1 x.known)
  | .applyDigest n i => do
    let x ← s.shared[i]?
    some (s.incorporated n ((s.replica n).applyDigest x.digest).1 x.known)

/-- The elements reflect exactly the edits that were incorporated. -/
def Reflects (known : List (Edit ν)) (elems : Dict (ElemId ν) (Elem ν α)) : Prop :=
  ∀ i, (.insert i ∈ known ↔ flagOf elems i ≠ none) ∧
    (.delete i ∈ known ↔ flagOf elems i = some true)

/-- What every run keeps. -/
structure Ok (s : RgaSwarm ν α) : Prop where
  log : s.log.Ok
  replica : ∀ n, (s.replica n).Ok s.log
  nodeId : ∀ n, (s.replica n).nodeId = n
  floor : ∀ p ∈ s.log, p.1.counter ≤ (s.replica p.1.node).counter
  known : ∀ n, Reflects (s.known n) (s.replica n).elems
  shared : ∀ x ∈ s.shared, ElemsLogged s.log x.elems ∧ Reflects x.known x.elems ∧
    ∀ i, (RGA.elemsOfDigest x.digest).get i = x.elems.get i

theorem Ok.init : (RgaSwarm.init : RgaSwarm ν α).Ok where
  log := ⟨List.nodup_nil, fun p hp => by cases hp⟩
  replica n := .init n
  nodeId n := rfl
  floor p hp := by cases hp
  known n i := by simp [RgaSwarm.init, RGA.init, flagOf]
  shared x hx := by cases hx

section
omit [Inhabited ν]

theorem Ok.incorporated {s : RgaSwarm ν α} {K : List (Edit ν)} (h : s.Ok) (hr : r.Ok s.log)
    (hn : r.nodeId = n) (hc : (s.replica n).counter ≤ r.counter)
    (hk : Reflects (s.known n ++ K) r.elems) : (s.incorporated n r K).Ok where
  log := h.log
  replica m := by
    by_cases hm : m = n
    · subst hm
      simpa [RgaSwarm.incorporated] using hr
    · simpa [RgaSwarm.incorporated, hm] using h.replica m
  nodeId m := by
    by_cases hm : m = n
    · subst hm
      simpa [RgaSwarm.incorporated] using hn
    · simpa [RgaSwarm.incorporated, hm] using h.nodeId m
  floor p hp := by
    have hf := h.floor p hp
    by_cases hm : p.1.node = n
    · rw [hm] at hf
      simpa [RgaSwarm.incorporated, hm] using hf.trans hc
    · simpa [RgaSwarm.incorporated, hm] using hf
  known m := by
    by_cases hm : m = n
    · subst hm
      simpa [RgaSwarm.incorporated] using hk
    · simpa [RgaSwarm.incorporated, hm] using h.known m
  shared := h.shared

theorem Reflects.merge {K K' : List (Edit ν)} {r : RGA ν α}
    {other : Dict (ElemId ν) (Elem ν α)} (h : Reflects K r.elems) (h' : Reflects K' other) :
    Reflects (K ++ K') (r.merge other).1.elems := by
  intro i
  obtain ⟨hi, hd⟩ := h i
  obtain ⟨hi', hd'⟩ := h' i
  rw [RGA.flagOf_merge, List.mem_append, List.mem_append, hi, hi', hd, hd']
  cases flagOf r.elems i with
  | none => simp [joinFlag]
  | some a =>
    cases flagOf other i with
    | none => simp [joinFlag]
    | some b => simp [joinFlag]

theorem Ok.merge {s : RgaSwarm ν α} {K : List (Edit ν)} (h : s.Ok) (n : ν)
    {other : Dict (ElemId ν) (Elem ν α)} (ho : ElemsLogged s.log other) (hk : Reflects K other) :
    (s.incorporated n ((s.replica n).merge other).1 K).Ok := by
  obtain ⟨hid, hc⟩ := (s.replica n).nodeId_mergeIds other (other.keys.insertionSort (· ≤ ·))
  exact h.incorporated ((h.replica n).merge ho) (hid.trans (h.nodeId n)) hc
    ((h.known n).merge hk)

end

theorem Ok.delete {s : RgaSwarm ν α} (h : s.Ok)
    (hd : (s.replica n).delete index = some (eid, r)) :
    (s.incorporated n r (eid.map Edit.delete).toList).Ok := by
  rcases RGA.delete_spec hd with ⟨rfl, rfl⟩ | ⟨ids, i, hids, hi, rfl, rfl⟩
  · apply h.incorporated (h.replica n) (h.nodeId n) le_rfl
    simpa using h.known n
  · obtain ⟨hnode, hcount, _⟩ := (s.replica n).markDeleted_fields i
    apply h.incorporated ((h.replica n).markDeleted i) (hnode.trans (h.nodeId n)) hcount.ge
    obtain ⟨ids', hids', _, hmem⟩ := RGA.visibleIds_spec (h.replica n) h.log
    rw [hids, Option.some.injEq] at hids'
    subst hids'
    have hshown := ((s.replica n).isShown_iff i).1 ((hmem i).1 hi).1
    intro j
    obtain ⟨hj, hjd⟩ := h.known n j
    rw [RGA.flagOf_markDeleted]
    by_cases hji : j = i
    · subst hji
      simp [hj, hshown]
    · simp [hji, hj, hjd]

theorem Ok.insert_fresh {s : RgaSwarm ν α} {after : ElemId ν} (h : s.Ok)
    (hids : (s.replica n).visibleIds = some ids) (ha : after = ElemId.ROOT ∨ after ∈ ids) :
    (∀ p ∈ s.log, p.1 ≠ ⟨(s.replica n).counter + 1, n⟩) ∧
      after < ⟨(s.replica n).counter + 1, n⟩ := by
  constructor
  · intro p hp he
    have hf := h.floor p hp
    rw [he] at hf
    dsimp only at hf
    omega
  · apply ElemId.lt_of_counter_lt
    have hpos := (h.replica n).nonneg
    rcases ha with rfl | ha
    · simp only [ElemId.ROOT]
      omega
    · obtain ⟨ids', hids', _, hmem⟩ := RGA.visibleIds_spec (h.replica n) h.log
      rw [hids, Option.some.injEq] at hids'
      subst hids'
      have hshown := ((s.replica n).isShown_iff after).1 ((hmem after).1 ha).1
      obtain ⟨e, he, _⟩ := Option.map_eq_some_iff.1 hshown
      have hle := (h.replica n).counter after e he
      dsimp only
      omega

theorem Ok.insert {s : RgaSwarm ν α} (h : s.Ok)
    (hi : (s.replica n).insert index value = some (eid, r)) : (s.inserted n eid r).Ok := by
  obtain ⟨ids, after, hids, ha, heid, hr⟩ := RGA.insert_spec hi
  rw [h.nodeId n] at heid
  obtain ⟨hfresh, hafter⟩ := h.insert_fresh hids ha
  rw [← heid] at hfresh hafter
  have hnew : (s.replica n).nextId.2.elems.get eid = none := by
    apply Option.eq_none_iff_forall_ne_some.2
    intro e he
    exact hfresh _ ((h.replica n).logged eid e he).2 rfl
  have hget : ∀ i, r.elems.get i = if i = eid then some ⟨eid, value, after, false⟩
      else (s.replica n).elems.get i := by
    intro i
    rw [hr]
    exact RGA.elems_applyInsert hnew value after i
  have hcounter : r.counter = (s.replica n).counter + 1 := by
    rw [hr, RGA.counter_applyInsert hnew, heid]
    exact max_self _
  have hnode : r.nodeId = n := by
    rw [hr, RGA.nodeId_applyInsert]
    exact h.nodeId n
  have hlog : (s.inserted n eid r).log = s.log ++ [(eid, value, after)] := by
    simp [RgaSwarm.inserted, hget]
  have hsub : ∀ p ∈ s.log, p ∈ (s.inserted n eid r).log := by
    intro p hp
    rw [hlog]
    exact List.mem_append_left _ hp
  have hok : r.Ok (s.inserted n eid r).log := by
    have hin : (eid, value, after) ∈ (s.inserted n eid r).log := by
      rw [hlog]
      exact List.mem_append_right _ List.mem_cons_self
    have hins := ((h.replica n).nextId.mono hsub).applyInsert hin
    rw [← hr] at hins
    exact hins
  refine ⟨?_, ?_, ?_, ?_, ?_, ?_⟩
  · rw [hlog]
    constructor
    · rw [List.map_append, List.nodup_append]
      refine ⟨h.log.unique, List.nodup_singleton _, ?_⟩
      intro i hi j hj
      obtain ⟨p, hp, rfl⟩ := List.mem_map.1 hi
      rw [List.map_singleton, List.mem_singleton] at hj
      rw [hj]
      exact hfresh p hp
    · intro p hp
      rcases List.mem_append.1 hp with hp | hp
      · exact h.log.after_lt p hp
      · rw [List.mem_singleton] at hp
        rw [hp]
        exact hafter
  · intro m
    by_cases hm : m = n
    · subst hm
      simpa only [RgaSwarm.inserted, Function.update_self] using hok
    · have hm' := (h.replica m).mono hsub
      simpa only [RgaSwarm.inserted, Function.update_of_ne hm] using hm'
  · intro m
    by_cases hm : m = n
    · subst hm
      simpa [RgaSwarm.inserted] using hnode
    · simpa [RgaSwarm.inserted, hm] using h.nodeId m
  · intro p hp
    rw [hlog, List.mem_append, List.mem_singleton] at hp
    rcases hp with hp | rfl
    · have hf := h.floor p hp
      by_cases hm : p.1.node = n
      · rw [hm] at hf
        simp only [RgaSwarm.inserted, hm, Function.update_self]
        omega
      · simpa [RgaSwarm.inserted, hm] using hf
    · simp [RgaSwarm.inserted, heid, hcounter]
  · intro m
    by_cases hm : m = n
    · subst hm
      simp only [RgaSwarm.inserted, Function.update_self]
      intro i
      obtain ⟨hki, hkd⟩ := h.known m i
      have hflag : flagOf r.elems i = if i = eid then some false
          else flagOf (s.replica m).elems i := by
        simp only [flagOf, hget]
        by_cases hie : i = eid <;> simp [hie]
      rw [hflag]
      by_cases hie : i = eid
      · subst hie
        have hn : flagOf (s.replica m).elems i = none := Option.map_eq_none_iff.2 hnew
        simp [hkd, hn]
      · simp [hie, hki, hkd]
    · simpa [RgaSwarm.inserted, hm] using h.known m
  · intro x hx
    obtain ⟨hlogged, hrest⟩ := h.shared x hx
    refine ⟨?_, hrest⟩
    intro i e he
    exact ⟨(hlogged i e he).1, hsub _ (hlogged i e he).2⟩

section
omit [Inhabited ν]

theorem Ok.share {s : RgaSwarm ν α} (h : s.Ok) (n : ν) :
    ({ s with shared := s.shared ++
      [⟨(s.replica n).elems, (s.replica n).digest, s.known n⟩] } : RgaSwarm ν α).Ok where
  log := h.log
  replica := h.replica
  nodeId := h.nodeId
  floor := h.floor
  known := h.known
  shared x hx := by
    rcases List.mem_append.1 hx with hx | hx
    · exact h.shared x hx
    · rw [List.mem_singleton] at hx
      subst hx
      refine ⟨(h.replica n).logged, h.known n, ?_⟩
      intro i
      rw [RGA.elemsOfDigest_digest (fun i e he => ((h.replica n).logged i e he).1)]

end

theorem Ok.step {s : RgaSwarm ν α} (h : s.Ok) (hs : s.step a = some s') : s'.Ok := by
  cases a with
  | insert n index value =>
    obtain ⟨⟨eid, r⟩, hi, hs⟩ := Option.bind_eq_some_iff.1 hs
    cases hs
    exact h.insert hi
  | append n value =>
    obtain ⟨⟨eid, r⟩, ha, hs⟩ := Option.bind_eq_some_iff.1 hs
    cases hs
    obtain ⟨index, hi⟩ := RGA.append_spec ha
    exact h.insert hi
  | delete n index =>
    obtain ⟨⟨eid, r⟩, hd, hs⟩ := Option.bind_eq_some_iff.1 hs
    cases hs
    exact h.delete hd
  | share n =>
    cases hs
    exact h.share n
  | merge n i =>
    obtain ⟨x, hx, hs⟩ := Option.bind_eq_some_iff.1 hs
    cases hs
    obtain ⟨hlogged, hk, _⟩ := h.shared x (List.mem_of_getElem? hx)
    exact h.merge n hlogged hk
  | applyDigest n i =>
    obtain ⟨x, hx, hs⟩ := Option.bind_eq_some_iff.1 hs
    cases hs
    obtain ⟨hlogged, hk, hget⟩ := h.shared x (List.mem_of_getElem? hx)
    apply h.merge n
    · intro i e he
      rw [hget] at he
      exact hlogged i e he
    · intro i
      simp only [flagOf, hget]
      exact hk i

theorem Ok.of_run {s : RgaSwarm ν α} (h : Run RgaSwarm.step RgaSwarm.init past s) : s.Ok :=
  h.invariant (C := fun _ _ => True) (fun _ _ => trivial) Ok.init
    (fun _ _ _ hs _ hstep => hs.step hstep)

theorem log_step {s s' : RgaSwarm ν α} (hs : s.step a = some s') : ∀ p ∈ s.log, p ∈ s'.log := by
  intro p hp
  cases a with
  | insert n index value =>
    obtain ⟨x, _, hs⟩ := Option.bind_eq_some_iff.1 hs
    cases hs
    exact List.mem_append_left _ hp
  | append n value =>
    obtain ⟨x, _, hs⟩ := Option.bind_eq_some_iff.1 hs
    cases hs
    exact List.mem_append_left _ hp
  | delete n index =>
    obtain ⟨x, _, hs⟩ := Option.bind_eq_some_iff.1 hs
    cases hs
    exact hp
  | share n =>
    cases hs
    exact hp
  | merge n i =>
    obtain ⟨x, _, hs⟩ := Option.bind_eq_some_iff.1 hs
    cases hs
    exact hp
  | applyDigest n i =>
    obtain ⟨x, _, hs⟩ := Option.bind_eq_some_iff.1 hs
    cases hs
    exact hp

theorem log_run {s s' : RgaSwarm ν α} (h : Run RgaSwarm.step s past s') :
    ∀ p ∈ s.log, p ∈ s'.log :=
  h.invariant (I := fun t => ∀ p ∈ s.log, p ∈ t.log) (C := fun _ _ => True)
    (fun _ _ => trivial) (fun _ hp => hp)
    (fun _ _ _ ht _ hstep p hp => log_step hstep p (ht p hp))

theorem ok_of_visited {s t : RgaSwarm ν α} (h : Run RgaSwarm.step RgaSwarm.init past s)
    (ht : Visited past s t) (n : ν) :
    (t.replica n).Ok s.log ∧ Reflects (t.known n) (t.replica n).elems := by
  rcases ht with rfl | ⟨a, ha⟩
  · exact ⟨(Ok.of_run h).replica n, (Ok.of_run h).known n⟩
  · obtain ⟨pre, post, t', _, hpre, hstep, hpost⟩ := h.of_mem_past ha
    have hok := Ok.of_run hpre
    refine ⟨(hok.replica n).mono ?_, hok.known n⟩
    intro p hp
    exact log_run hpost p (log_step hstep p hp)

section
omit [Inhabited ν]

theorem Reflects.flagOf_eq {K K' : List (Edit ν)} {elems elems' : Dict (ElemId ν) (Elem ν α)}
    (h : Reflects K elems) (h' : Reflects K' elems') (hk : ∀ x, x ∈ K ↔ x ∈ K')
    (i : ElemId ν) : flagOf elems i = flagOf elems' i := by
  have hi := (h i).1.symm.trans ((hk _).trans (h' i).1)
  have hd := (h i).2.symm.trans ((hk _).trans (h' i).2)
  cases hf : flagOf elems i with
  | none =>
    cases hf' : flagOf elems' i with
    | none => rfl
    | some b => simp [hf, hf'] at hi
  | some a =>
    cases hf' : flagOf elems' i with
    | none => simp [hf, hf'] at hi
    | some b => cases a <;> cases b <;> simp [hf, hf'] at hd ⊢

end

end RgaSwarm

section
omit [Inhabited ν]

theorem RGA.Ok.elems_eq {log : InsertLog ν α} {r r' : RGA ν α} (hl : log.Ok) (h : r.Ok log)
    (h' : r'.Ok log) (hf : ∀ i, flagOf r.elems i = flagOf r'.elems i) (i : ElemId ν) :
    r.elems.get i = r'.elems.get i := by
  have hi := hf i
  unfold flagOf at hi
  cases he : r.elems.get i with
  | none =>
    rw [he, Option.map_none, eq_comm, Option.map_eq_none_iff] at hi
    rw [hi]
  | some e =>
    rw [he, Option.map_some, eq_comm] at hi
    obtain ⟨e', he', hd⟩ := Option.map_eq_some_iff.1 hi
    obtain ⟨hid, hm⟩ := h.logged i e he
    obtain ⟨hid', hm'⟩ := h'.logged i e' he'
    have heq := hl.eq_of_id hm hm' rfl
    simp only [Prod.mk.injEq, true_and] at heq
    rw [he']
    cases e
    cases e'
    simp_all

end

theorem RGA.Ok.toList_eq {log : InsertLog ν α} {r r' : RGA ν α} (hl : log.Ok) (h : r.Ok log)
    (h' : r'.Ok log) (he : ∀ i, r.elems.get i = r'.elems.get i) : r.toList = r'.toList := by
  obtain ⟨ids, hids, hpw, hmem⟩ := RGA.visibleIds_spec h hl
  obtain ⟨ids', hids', hpw', hmem'⟩ := RGA.visibleIds_spec h' hl
  have hbelow : r.HangsBelow = r'.HangsBelow := by
    funext c p
    simp only [RGA.HangsBelow, he]
  have hshown : r.isShown = r'.isShown := by
    funext i
    simp only [RGA.isShown, he]
  have heq : ids = ids' := by
    apply eq_of_pairwise_of_mem_iff (RGA.DocBefore.asymm hl) hpw hpw'
    intro x
    rw [hmem, hmem', hbelow, hshown]
  simp only [RGA.toList, hids, hids', heq, he]

/-- Any two elements that two replicas show, at any two times, stand in the same order, and
replicas that incorporated the same inserts and deletes show the same document. -/
theorem rga_strong_convergence {s t u : RgaSwarm ν α}
    (h : Run RgaSwarm.step RgaSwarm.init past s) (ht : Visited past s t)
    (hu : Visited past s u) (m n : ν) :
    ∃ lm ln, (t.replica m).visibleIds = some lm ∧ (u.replica n).visibleIds = some ln ∧
      (∀ x y, x ≠ y → x ∈ lm → y ∈ lm → x ∈ ln → y ∈ ln →
        ([x, y].Sublist lm ↔ [x, y].Sublist ln)) ∧
      ((∀ x, x ∈ t.known m ↔ x ∈ u.known n) →
        ∃ l, (t.replica m).toList = some l ∧ (u.replica n).toList = some l) := by
  have hl := (RgaSwarm.Ok.of_run h).log
  obtain ⟨hm, hkm⟩ := RgaSwarm.ok_of_visited h ht m
  obtain ⟨hn, hkn⟩ := RgaSwarm.ok_of_visited h hu n
  obtain ⟨lm, hlm, hpm, _⟩ := RGA.visibleIds_spec hm hl
  obtain ⟨ln, hln, hpn, _⟩ := RGA.visibleIds_spec hn hl
  refine ⟨lm, ln, hlm, hln, ?_, ?_⟩
  · intro x y hxy hxm hym hxn hyn
    have hasymm := RGA.DocBefore.asymm hl
    rw [pair_sublist_iff hasymm hpm hxm hym hxy, pair_sublist_iff hasymm hpn hxn hyn hxy]
  · intro hk
    have hflag := hkm.flagOf_eq hkn hk
    have heq := hm.toList_eq hl hn (hm.elems_eq hl hn hflag)
    have hdoc : (t.replica m).toList =
        some (lm.filterMap (fun i => ((t.replica m).elems.get i).map Elem.value)) := by
      simp only [RGA.toList, hlm, Option.bind_eq_bind, Option.bind_some]
    exact ⟨_, hdoc, heq.symm.trans hdoc⟩

/-- Two nodes insert at the same place, exchange their states and one of them deletes. -/
def concurrentInserts : List (RgaAction String Char) :=
  [.append "a" 'x', .append "b" 'y', .insert "b" 0 'z', .share "a", .merge "b" 0, .delete "b" 1,
    .share "b", .applyDigest "a" 1, .applyDigest "a" 1]

theorem rga_strong_convergence_concurrent :
    ∃ past, ∃ s : RgaSwarm String Char, Run RgaSwarm.step RgaSwarm.init past s ∧
      (s.replica "a").toList = some ['z', 'x'] ∧ (s.replica "b").toList = some ['z', 'x'] := by
  obtain ⟨past, s, hr, hs⟩ := exists_run_of_exec RgaSwarm.step RgaSwarm.init concurrentInserts
    (fun s => ((s.replica "a").toList, s.known "a", s.known "b"))
    (some ['z', 'x'],
      [.insert ⟨1, "a"⟩, .insert ⟨1, "b"⟩, .insert ⟨2, "b"⟩, .insert ⟨1, "a"⟩, .delete ⟨1, "b"⟩,
        .insert ⟨1, "b"⟩, .insert ⟨2, "b"⟩, .insert ⟨1, "a"⟩, .delete ⟨1, "b"⟩],
      [.insert ⟨1, "b"⟩, .insert ⟨2, "b"⟩, .insert ⟨1, "a"⟩, .delete ⟨1, "b"⟩])
    (by decide)
  simp only [Prod.mk.injEq] at hs
  obtain ⟨hdoc, hka, hkb⟩ := hs
  obtain ⟨_, _, _, _, _, hsame⟩ := rga_strong_convergence hr (.inl rfl) (.inl rfl) "a" "b"
  have hknown : ∀ x, x ∈ s.known "a" ↔ x ∈ s.known "b" := by
    intro x
    rw [hka, hkb]
    simp only [List.mem_cons, List.not_mem_nil]
    tauto
  obtain ⟨l, hl, hl'⟩ := hsame hknown
  refine ⟨past, s, hr, hdoc, ?_⟩
  rw [hl', ← hl, hdoc]

end Suprime
