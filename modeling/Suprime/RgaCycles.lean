import Mathlib.Data.String.Basic
import Suprime.Run
import Suprime.RgaOrder
import Suprime.WalkDepth

namespace Suprime
set_option autoImplicit true

variable {ν α : Type} [LinearOrder ν] [Inhabited ν]

/-- What a replica does by itself, and a digest as it comes from the wire. -/
inductive RgaInput (ν α : Type)
  | insert (index : ℤ) (value : α)
  | append (value : α)
  | delete (index : ℤ)
  | digest (d : List (ElemId ν × α × ElemId ν × Bool))

/-- The digest, if it is one, brings no element under the root's own id. -/
def RgaInput.Rootless : RgaInput ν α → Prop
  | .digest d => ∀ raw ∈ d, raw.1 ≠ .ROOT
  | _ => True

instance (x : RgaInput ν α) : Decidable x.Rootless :=
  match x with
  | .insert _ _ => inferInstanceAs (Decidable True)
  | .append _ => inferInstanceAs (Decidable True)
  | .delete _ => inferInstanceAs (Decidable True)
  | .digest d => inferInstanceAs (Decidable (∀ raw ∈ d, raw.1 ≠ ElemId.ROOT))

namespace RGA

def input (r : RGA ν α) : RgaInput ν α → Option (RGA ν α)
  | .insert index value => (r.insert index value).map Prod.snd
  | .append value => (r.append value).map Prod.snd
  | .delete index => (r.delete index).map Prod.snd
  | .digest d => some (r.applyDigest d).1

/-- The recursion of `_visible_ids` ends, at whatever depth. -/
def WalkEnds (r : RGA ν α) : Prop :=
  ∃ depth ids, walk r.childrenOf r.isShown depth .ROOT = some ids

/-- The predecessors of an element under the root's own id lead back to the root. -/
def RootCycle (r : RGA ν α) : Prop := ∃ l, l ≠ [] ∧ Path r.HangsBelow .ROOT l .ROOT

theorem walkEnds_iff {r : RGA ν α} (h : r.Linked) :
    (r.WalkEnds ↔ ¬ r.RootCycle) ∧ (r.WalkEnds ↔ ∃ ids, r.visibleIds = some ids) := by
  have hfun : ∀ c p q, r.HangsBelow c p → r.HangsBelow c q → p = q :=
    fun c p q hp hq => hangsBelow_unique hp hq
  have hfin : ∀ c p, r.HangsBelow c p → c ∈ r.elems.keys.toFinset := by
    rintro c p ⟨e, he, -⟩
    exact List.mem_toFinset.2 (Dict.mem_keys.2 ⟨e, he⟩)
  have hwalk : ((∃ depth ids, walk r.childrenOf r.isShown depth .ROOT = some ids) ↔
      ∀ l, Path r.HangsBelow .ROOT l .ROOT → l = []) ∧ _ := walk_ends_iff h hfun _ hfin
  obtain ⟨hends, hfuel⟩ := hwalk
  have hcycle : (∀ l, Path r.HangsBelow .ROOT l .ROOT → l = []) ↔ ¬ r.RootCycle := by
    constructor
    · rintro hroot ⟨l, hne, hl⟩
      exact hne (hroot l hl)
    · intro hno l hl
      by_contra hne
      exact hno ⟨l, hne, hl⟩
  refine ⟨hends.trans hcycle, ?_, ?_⟩
  · intro hwalk
    obtain ⟨ids, hids⟩ := hfuel (hends.1 hwalk)
    refine ⟨ids, walk_mono hids ?_⟩
    have hcard : r.elems.keys.toFinset.card ≤ r.elems.items.length := by
      simpa [Dict.keys] using r.elems.keys.toFinset_card_le
    omega
  · rintro ⟨ids, hids⟩
    exact ⟨_, ids, hids⟩

/-- A local edit changes nothing, inserts the element of the next id or sets a tombstone. -/
theorem input_cases {r r' : RGA ν α} (h : r.input x = some r') :
    (∃ value after, r' = r.nextId.2.applyInsert ⟨r.counter + 1, r.nodeId⟩ value after) ∨
      (∃ eid, r' = r.markDeleted eid) ∨ r' = r ∨ ∃ d, x = .digest d ∧ r' = (r.applyDigest d).1 := by
  cases x with
  | insert index value =>
    obtain ⟨⟨eid, t⟩, hins, rfl⟩ := Option.map_eq_some_iff.1 h
    obtain ⟨ids, -, hins⟩ := Option.bind_eq_some_iff.1 hins
    obtain ⟨after, -, hins⟩ := Option.bind_eq_some_iff.1 hins
    cases hins
    exact .inl ⟨value, after, rfl⟩
  | append value =>
    obtain ⟨⟨eid, t⟩, happend, rfl⟩ := Option.map_eq_some_iff.1 h
    obtain ⟨ids, -, hins⟩ := Option.bind_eq_some_iff.1 happend
    obtain ⟨ids, -, hins⟩ := Option.bind_eq_some_iff.1 hins
    obtain ⟨after, -, hins⟩ := Option.bind_eq_some_iff.1 hins
    cases hins
    exact .inl ⟨value, after, rfl⟩
  | delete index =>
    obtain ⟨⟨o, t⟩, hdel, rfl⟩ := Option.map_eq_some_iff.1 h
    obtain ⟨ids, -, hdel⟩ := Option.bind_eq_some_iff.1 hdel
    split at hdel
    · cases hdel
      exact .inr (.inr (.inl rfl))
    · obtain ⟨eid, -, hdel⟩ := Option.bind_eq_some_iff.1 hdel
      cases hdel
      exact .inr (.inl ⟨eid, rfl⟩)
  | digest d =>
    cases h
    exact .inr (.inr (.inr ⟨d, rfl, rfl⟩))

theorem Linked.init (n : ν) : (RGA.init n : RGA ν α).Linked := by
  have hok : (RGA.init n : RGA ν α).Ok [] := .init n
  exact hok.children

theorem Linked.input {r r' : RGA ν α} (h : r.Linked) (hx : r.input x = some r') : r'.Linked := by
  have hnext : r.nextId.2.Linked := h
  cases input_cases hx with
  | inl hins =>
    obtain ⟨value, after, rfl⟩ := hins
    exact hnext.applyInsert _ value after
  | inr hrest =>
    cases hrest with
    | inl hdel =>
      obtain ⟨eid, rfl⟩ := hdel
      exact h.markDeleted eid
    | inr hrest =>
      cases hrest with
      | inl hsame =>
        rw [hsame]
        exact h
      | inr hdigest =>
        obtain ⟨d, -, rfl⟩ := hdigest
        exact h.mergeIds _ _

/-- The root's own id is not among the elements, and no local id can be it. -/
structure Rootless (r : RGA ν α) : Prop where
  absent : r.elems.get .ROOT = none
  nonneg : 0 ≤ r.counter

theorem Rootless.applyInsert {r : RGA ν α} (h : r.Rootless) (hne : eid ≠ .ROOT) (value : α)
    (after : ElemId ν) : (r.applyInsert eid value after).Rootless := by
  cases hk : r.elems.get eid with
  | some e =>
    rw [applyInsert_of_some hk]
    exact h
  | none =>
    constructor
    · rw [elems_applyInsert hk, if_neg hne.symm]
      exact h.absent
    · rw [counter_applyInsert hk]
      exact h.nonneg.trans (le_max_left _ _)

theorem Rootless.markDeleted {r : RGA ν α} (h : r.Rootless) (eid : ElemId ν) :
    (r.markDeleted eid).Rootless := by
  obtain ⟨-, hcounter, -⟩ := r.markDeleted_fields eid
  constructor
  · rw [elems_markDeleted, h.absent, Option.map_none, ite_self]
  · rw [hcounter]
    exact h.nonneg

theorem Rootless.mergeIds {r : RGA ν α} (h : r.Rootless) (other : Dict (ElemId ν) (Elem ν α))
    {ids : List (ElemId ν)} (hids : ∀ eid ∈ ids, eid ≠ .ROOT) :
    (r.mergeIds other ids).1.Rootless := by
  induction ids generalizing r with
  | nil => exact h
  | cons eid ids ih =>
    have hrest : ∀ i ∈ ids, i ≠ .ROOT := fun i hi => hids i (List.mem_cons_of_mem _ hi)
    cases hk : other.get eid with
    | none =>
      simp only [RGA.mergeIds, hk]
      exact ih h hrest
    | some oe =>
      simp only [RGA.mergeIds, hk]
      have hins := h.applyInsert (hids eid List.mem_cons_self) oe.value oe.after
      apply ih ?_ hrest
      rw [mergeElem_fst]
      split
      · exact hins.markDeleted eid
      · exact hins

theorem ne_root_of_mem_digest {d : List (ElemId ν × α × ElemId ν × Bool)}
    (hd : ∀ raw ∈ d, raw.1 ≠ .ROOT) :
    ∀ eid ∈ (elemsOfDigest d).keys.insertionSort (· ≤ ·), eid ≠ .ROOT := by
  intro eid heid
  rw [List.mem_insertionSort, Dict.mem_keys] at heid
  obtain ⟨e, he⟩ := heid
  have hmem := Dict.mem_of_get_ofList he
  obtain ⟨raw, hraw, heq⟩ := List.mem_map.1 hmem
  have hid : raw.1 = eid := congrArg Prod.fst heq
  rw [← hid]
  exact hd raw hraw

theorem Rootless.input {r r' : RGA ν α} (h : r.Rootless) (hd : x.Rootless)
    (hx : r.input x = some r') :
    r'.Rootless := by
  have hnext : r.nextId.2.Rootless := ⟨h.absent, h.nonneg.trans (Int.le_add_one le_rfl)⟩
  cases input_cases hx with
  | inl hins =>
    obtain ⟨value, after, rfl⟩ := hins
    apply hnext.applyInsert
    intro he
    have hcounter := congrArg ElemId.counter he
    have hpos := h.nonneg
    simp only [ElemId.ROOT] at hcounter
    omega
  | inr hrest =>
    cases hrest with
    | inl hdel =>
      obtain ⟨eid, rfl⟩ := hdel
      exact h.markDeleted eid
    | inr hrest =>
      cases hrest with
      | inl hsame =>
        rw [hsame]
        exact h
      | inr hdigest =>
        obtain ⟨d, rfl, rfl⟩ := hdigest
        exact h.mergeIds _ (ne_root_of_mem_digest hd)

theorem Rootless.not_rootCycle {r : RGA ν α} (h : r.Rootless) : ¬ r.RootCycle := by
  rintro ⟨l, hne, hl⟩
  obtain ⟨m, x, rfl⟩ := List.eq_nil_or_concat l |>.resolve_left hne
  rw [List.concat_eq_append] at hl
  obtain ⟨-, q, ⟨e, he, -⟩, -⟩ := hl.snoc_inv
  rw [h.absent] at he
  cases he

end RGA

/-- In every state that digests from the wire and local edits lead to, the walk ends exactly when
no chain of predecessors leads from the root back to the root. It ends all along a run whose
digests bring no element under the root's own id. -/
theorem rga_walk_ends_iff {r : RGA ν α} {n : ν} (h : Run RGA.input (RGA.init n) past r) :
    (r.WalkEnds ↔ ¬ r.RootCycle) ∧
      ((∀ p ∈ past, p.2.Rootless) → r.WalkEnds) := by
  have hlinked : r.Linked := h.invariant (I := RGA.Linked) (C := fun _ _ => True)
    (fun _ _ => trivial) (.init n) (fun _ _ _ hr _ hx => hr.input hx)
  have hends := (RGA.walkEnds_iff hlinked).1
  refine ⟨hends, ?_⟩
  intro hd
  have hrootless : r.Rootless := h.invariant (I := RGA.Rootless)
    (C := fun _ x => x.Rootless) hd ⟨rfl, le_rfl⟩
    (fun _ _ _ hr hC hx => hr.input hC hx)
  exact hends.2 hrootless.not_rootCycle

/-- One element under the root's own id, after the root. -/
def rootLoop : List (ElemId String × Char × ElemId String × Bool) := [(.ROOT, 'x', .ROOT, false)]

/-- Such a digest makes the walk visit the root below the root. -/
theorem root_loop_never_ends :
    ¬ ∀ (past : List (RGA String Char × RgaInput String Char)) (r : RGA String Char),
      Run RGA.input (RGA.init "a") past r → r.WalkEnds := by
  intro hall
  have hrun : Run RGA.input (RGA.init "a") [(RGA.init "a", .digest rootLoop)]
      ((RGA.init "a").applyDigest rootLoop).1 := Run.start.next rfl
  have hends := hall _ _ hrun
  have hhangs : ((RGA.init "a").applyDigest rootLoop).1.HangsBelow .ROOT .ROOT :=
    ⟨⟨.ROOT, 'x', .ROOT, false⟩, by decide, rfl⟩
  exact (rga_walk_ends_iff hrun).1.1 hends ⟨[.ROOT], by simp, .cons hhangs .nil⟩

theorem rga_walk_ends_iff_append :
    ∃ past, ∃ r : RGA String Char, Run RGA.input (RGA.init "a") past r ∧
      r.toList = some ['x', 'y'] ∧ r.WalkEnds := by
  obtain ⟨past, r, hr, hC, hs⟩ := exists_run_of_execWhere RGA.input (fun _ x => x.Rootless)
    (RGA.init "a") [.append 'x', .digest [(⟨7, "b"⟩, 'y', ⟨1, "a"⟩, false)]]
    (fun r => r.toList) (some ['x', 'y']) (by decide)
  exact ⟨past, r, hr, hs, (rga_walk_ends_iff hr).2 hC⟩

end Suprime
