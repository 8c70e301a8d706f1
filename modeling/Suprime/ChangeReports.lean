import Suprime.CausalMaxima
import Suprime.Counters
import Suprime.LwwMap
import Suprime.ObservedRemove
import Suprime.RgaSwarm

namespace Suprime
set_option autoImplicit true

/-- What a merge returns tells whether the logical state is another one afterwards. -/
def ReportsChange (same : σ → σ → Prop) (before : σ) (after : σ × Bool) : Prop :=
  after.2 = true ↔ ¬ same before after.1

/-- Merging a state and applying its digest report exactly the changes, and applying the digest
again reports none. -/
structure ExactReports (same : σ → σ → Prop) (merge applyDigest : σ → σ × Bool) (a : σ) :
    Prop where
  merge : ReportsChange same a (merge a)
  digest : ReportsChange same a (applyDigest a)
  again : (applyDigest (applyDigest a).1).2 = false

namespace GCounter

variable {ν : Type} [DecidableEq ν]

/-- The same counts, absent meaning 0. -/
def Same (a b : GCounter ν) : Prop := ∀ m, a.count m = b.count m

theorem reports_merge (a b : GCounter ν) : ReportsChange Same a (a.merge b) := by
  have hflag := joinLoop.flag_foldl b.counts.nodup (a, false)
  rw [ReportsChange, merge, hflag, Same, not_forall]
  simp only [Bool.false_eq_true, false_or]
  exact exists_congr (fun k => ne_comm)

theorem merge_again (a b : GCounter ν) : ((a.merge b).1.merge b).2 = false :=
  joinLoop.flag_again b.counts.nodup (fun _ _ => max_eq_left (le_max_right _ _)) (a, false)

end GCounter

namespace PNCounter

variable {ν : Type} [DecidableEq ν]

def Same (a b : PNCounter ν) : Prop := a.p.Same b.p ∧ a.n.Same b.n

theorem reports_merge (a b : PNCounter ν) : ReportsChange Same a (a.merge b) := by
  have hp := a.p.reports_merge b.p
  have hn := a.n.reports_merge b.n
  unfold ReportsChange at hp hn ⊢
  rw [merge, Bool.or_eq_true, hp, hn, Same, not_and_or]

theorem merge_again (a b : PNCounter ν) : ((a.merge b).1.merge b).2 = false := by
  rw [merge, merge, Bool.or_eq_false_iff]
  exact ⟨a.p.merge_again b.p, a.n.merge_again b.n⟩

end PNCounter

namespace ORSet

variable {ε : Type} [DecidableEq ε]

/-- The same tags of every element and the same removed tags. -/
def Same (a b : ORSet ε) : Prop := (∀ x, a.tags x = b.tags x) ∧ a.removed = b.removed

theorem reports_merge (a b : ORSet ε) : ReportsChange Same a (a.merge b) := by
  have hflag := joinLoop.flag_foldl b.adds.nodup (a.adds, false)
  have htags : ¬ (∀ x, a.tags x = (a.merge b).1.tags x) ↔
      (b.adds.items.foldl mergeTags (a.adds, false)).2 = true := by
    rw [hflag, not_forall]
    simp only [Bool.false_eq_true, false_or]
    apply exists_congr
    intro x
    rw [tags, tags, adds_merge]
    exact ne_comm
  have hremoved : ¬ a.removed = (a.merge b).1.removed ↔ ¬ b.removed ⊆ a.removed := by
    rw [removed_merge, eq_comm, Finset.union_eq_left]
  rw [ReportsChange, Same, not_and_or, htags, hremoved, merge]
  by_cases hsub : b.removed ⊆ a.removed
  · rw [if_neg (not_not.2 hsub)]
    simp [hsub]
  · rw [if_pos hsub]
    exact iff_of_true rfl (.inr hsub)

theorem merge_again (a b : ORSet ε) : ((a.merge b).1.merge b).2 = false := by
  have hsub : b.removed ⊆ (a.merge b).1.removed := by
    rw [removed_merge]
    exact Finset.subset_union_right
  have hflag := joinLoop.flag_again b.adds.nodup
    (fun _ _ => Finset.union_eq_left.2 Finset.subset_union_right) (a.adds, false)
  rw [← adds_merge] at hflag
  rw [merge, if_neg (not_not.2 hsub)]
  exact hflag

end ORSet

namespace LWWMap

variable {ν κ α τ : Type} [LinearOrder ν] [DecidableEq κ] [LinearOrder τ]

/-- The same entries. -/
def Same (a b : LWWMap ν κ α τ) : Prop := a.entries.Same b.entries

theorem reports_merge (a b : LWWMap ν κ α τ) : ReportsChange Same a (a.merge b) := by
  have hflag := joinLoop.flag_foldl b.entries.nodup (a.entries, false)
  rw [ReportsChange, merge]
  dsimp only
  rw [hflag, Same, Dict.Same, not_forall]
  simp only [Bool.false_eq_true, false_or]
  exact exists_congr (fun k => ne_comm)

theorem newer_again (cur : Option (LWWEntry ν α τ)) (e : LWWEntry ν α τ) :
    newer (newer cur (some e)) (some e) = newer cur (some e) := by
  rcases newer_eq_left_or_right cur (some e) with heq | heq
  · rw [heq, heq]
  · rw [heq, newer]
    exact ite_self _

theorem merge_again (a b : LWWMap ν κ α τ) : ((a.merge b).1.merge b).2 = false :=
  joinLoop.flag_again b.entries.nodup newer_again (a.entries, false)

end LWWMap

namespace RGA

variable {ν α : Type} [LinearOrder ν] [Inhabited ν]

/-- The same elements with the same deletion flags. -/
def Same (r r' : RGA ν α) : Prop := r.elems.Same r'.elems

section
omit [Inhabited ν]

theorem flag_mergeElem (r : RGA ν α) (oe : Elem ν α) (eid : ElemId ν) :
    (r.mergeElem oe eid).2 = true ↔
      flagOf (r.mergeElem oe eid).1.elems eid ≠ flagOf r.elems eid := by
  rw [flagOf_mergeElem, if_pos rfl]
  cases hk : r.elems.get eid with
  | none =>
    refine iff_of_true ?_ (by simp [flagOf, hk, joinFlag])
    simp only [mergeElem, hk, Option.isSome_none, Bool.false_eq_true, if_false]
    split
    · rfl
    · rfl
  | some e =>
    have hshown := r.isShown_iff eid
    unfold mergeElem
    simp only [flagOf, hk, Option.isSome_some, if_true, Option.map_some, joinFlag] at hshown ⊢
    cases hd : e.deleted <;> cases ho : oe.deleted <;> simp_all

theorem flagOf_mergeElem_ne (r : RGA ν α) (oe : Elem ν α) {eid i : ElemId ν} (h : i ≠ eid) :
    flagOf (r.mergeElem oe eid).1.elems i = flagOf r.elems i := by
  rw [flagOf_mergeElem, if_neg h]

theorem flag_mergeIds (r : RGA ν α) (other : Dict (ElemId ν) (Elem ν α))
    (ids : List (ElemId ν)) : (r.mergeIds other ids).2 = true ↔
      ∃ i, flagOf (r.mergeIds other ids).1.elems i ≠ flagOf r.elems i := by
  induction ids generalizing r with
  | nil => simp [mergeIds]
  | cons eid ids ih =>
    cases hk : other.get eid with
    | none =>
      simp only [mergeIds, hk]
      exact ih r
    | some oe =>
      simp only [mergeIds, hk, Bool.or_eq_true, ih]
      have hmerged := (r.mergeElem oe eid).1.flagOf_mergeIds other ids eid
      by_cases hflag : (r.mergeElem oe eid).2 = true
      · refine iff_of_true (.inl hflag) ⟨eid, ?_⟩
        have hkeep : flagOf ((r.mergeElem oe eid).1.mergeIds other ids).1.elems eid =
            flagOf (r.mergeElem oe eid).1.elems eid := by
          have ho : flagOf other eid = some oe.deleted := by simp [flagOf, hk]
          rw [hmerged, ho, flagOf_mergeElem, if_pos rfl, joinFlag_idem, ite_self]
        rw [hkeep]
        exact (r.flag_mergeElem oe eid).1 hflag
      · have hsame : ∀ i, flagOf (r.mergeElem oe eid).1.elems i = flagOf r.elems i := by
          intro i
          by_cases hi : i = eid
          · rw [hi]
            exact not_ne_iff.1 (mt (r.flag_mergeElem oe eid).2 hflag)
          · exact r.flagOf_mergeElem_ne oe hi
        simp only [hsame]
        exact or_iff_right hflag

/-- A merge changes nothing of an element that is there but its deletion flag. -/
theorem get_mergeElem {r : RGA ν α} {e : Elem ν α} (h : r.elems.get i = some e) (oe : Elem ν α)
    (eid : ElemId ν) :
    ∃ d, (r.mergeElem oe eid).1.elems.get i = some { e with deleted := d } := by
  have hins : (r.applyInsert eid oe.value oe.after).elems.get i = some e := by
    cases hk : r.elems.get eid with
    | some e' =>
      rw [applyInsert_of_some hk]
      exact h
    | none =>
      have hi : i ≠ eid := by
        rintro rfl
        rw [h] at hk
        cases hk
      rw [elems_applyInsert hk, if_neg hi]
      exact h
  rw [mergeElem_fst]
  split
  · rw [elems_markDeleted, hins]
    by_cases hi : i = eid
    · rw [if_pos hi]
      exact ⟨true, rfl⟩
    · rw [if_neg hi]
      exact ⟨e.deleted, rfl⟩
  · exact ⟨e.deleted, hins⟩

theorem get_mergeIds {r : RGA ν α} {e : Elem ν α} (h : r.elems.get i = some e)
    (other : Dict (ElemId ν) (Elem ν α)) (ids : List (ElemId ν)) :
    ∃ d, (r.mergeIds other ids).1.elems.get i = some { e with deleted := d } := by
  induction ids generalizing r e with
  | nil => exact ⟨e.deleted, h⟩
  | cons eid ids ih =>
    cases hk : other.get eid with
    | none =>
      simp only [mergeIds, hk]
      exact ih h
    | some oe =>
      simp only [mergeIds, hk]
      obtain ⟨d, hd⟩ := get_mergeElem h oe eid
      obtain ⟨d', hd'⟩ := ih hd
      exact ⟨d', hd'⟩

theorem reports_merge (r : RGA ν α) (other : Dict (ElemId ν) (Elem ν α)) :
    ReportsChange Same r (r.merge other) := by
  rw [ReportsChange, merge, flag_mergeIds, Same, Dict.Same, not_forall]
  apply exists_congr
  intro i
  apply not_congr
  constructor
  · intro hflag
    cases hi : r.elems.get i with
    | none =>
      rw [flagOf, flagOf, hi, Option.map_none, Option.map_eq_none_iff] at hflag
      exact hflag.symm
    | some e =>
      obtain ⟨d, hd⟩ := get_mergeIds hi other (other.keys.insertionSort (· ≤ ·))
      rw [flagOf, flagOf, hd, hi, Option.map_some, Option.map_some, Option.some.injEq] at hflag
      have hflag : d = e.deleted := hflag
      rw [hd, hflag]
  · intro hsame
    rw [flagOf, flagOf, hsame]

theorem merge_again (r : RGA ν α) (other : Dict (ElemId ν) (Elem ν α)) :
    ((r.merge other).1.merge other).2 = false := by
  rw [← Bool.not_eq_true]
  intro hflag
  obtain ⟨i, hne⟩ := (flag_mergeIds _ _ _).1 hflag
  apply hne
  change flagOf ((r.merge other).1.merge other).1.elems i = flagOf (r.merge other).1.elems i
  rw [flagOf_merge, flagOf_merge, joinFlag_idem]

end

end RGA

namespace MVRegister

variable {ν α : Type} [DecidableEq ν] [BEq α]

/-- The same versions, as a set, and the same clock. -/
def Same (a b : MVRegister ν α) : Prop :=
  (∀ p, p ∈ a.versions ↔ p ∈ b.versions) ∧ a.vc.clock.Same b.vc.clock

/-- One of two registers has a version that the other one lacks and that is not before any of the
other one's. -/
def HasNews (a b : MVRegister ν α) : Prop :=
  ∃ p ∈ b.versions, p ∉ a.versions ∧ ∀ q ∈ a.versions, p.2.compare q.2 ≠ .before

theorem flag_merge (a b : MVRegister ν α) :
    (a.merge b).2 = true ↔ ¬ (a.versions = [] ∧ b.versions = []) := by
  have hkept : kept (a.versions ++ b.versions) = [] ↔ a.versions = [] ∧ b.versions = [] := by
    rw [kept, foldl_keepMaximal_eq_nil, List.append_eq_nil_iff]
  rw [← hkept]
  unfold merge
  dsimp only
  rw [bne_self_eq_false, Bool.or_false, Bool.not_eq_true', Bool.and_eq_false_iff,
    List.isEmpty_eq_false_iff, List.isEmpty_eq_false_iff]
  constructor
  · rintro (h | h) hnil
    · exact h hnil
    · exact h (hkept.1 hnil).1
  · exact .inl

/-- A register that is merged again reports a change unless both registers are empty. -/
theorem flag_again (a b : MVRegister ν α) :
    ((a.merge b).1.merge b).2 = false ↔ a.versions = [] ∧ b.versions = [] := by
  have hversions : (a.merge b).1.versions = [] ↔ a.versions = [] ∧ b.versions = [] := by
    change kept (a.versions ++ b.versions) = [] ↔ _
    rw [kept, foldl_keepMaximal_eq_nil, List.append_eq_nil_iff]
  rw [← Bool.not_eq_true, flag_merge, not_not, hversions]
  exact and_iff_left_of_imp And.right

variable {log : WriteLog ν α} {n m : ν} {H K : Finset ℕ} {a b : MVRegister ν α}

theorem subset_of_no_news (hl : CausalLog log) (hH : Causal log H) (hK : Causal log K)
    (h : Latest n log H a) (h' : Latest m log K b) (hnews : ¬ HasNews a b) : K ⊆ H := by
  intro i hi
  obtain ⟨e, he⟩ : ∃ e, log[i]? = some e := ⟨_, List.getElem?_eq_getElem (hK.lt i hi)⟩
  have hclocked := h'.clocked i hi e he
  have hwritten : WrittenIn log K e.out := ⟨i, hi, e, he, hclocked.out.symm, rfl⟩
  obtain ⟨p, hp, hep⟩ := h'.maxima.cover e.out hwritten
  have hpK := h'.maxima.mem p hp
  have hcover : ∃ q ∈ a.versions, p = q ∨ ClockBefore p q := by
    by_contra hnone
    apply hnews
    refine ⟨p, hp, fun hpa => hnone ⟨p, hpa, .inl rfl⟩, fun q hq hbefore => ?_⟩
    exact hnone ⟨q, hq, .inr hbefore⟩
  obtain ⟨q, hq, hpq⟩ := hcover
  have hqH := h.maxima.mem q hq
  have heq := (selects hl).cover_trans (h'.clockedWrite hwritten) (h'.clockedWrite hpK)
    (h.clockedWrite hqH) hep hpq
  obtain ⟨j, hj, e', he', _, rfl⟩ := hqH
  have hclocked' := h.clocked j hj e' he'
  rcases heq with heq | hbefore
  · have hsame : e.out.2.clock.Same e'.out.2.clock := fun k => by rw [heq]
    rw [hclocked.eq_of_same hl hclocked' he he' hsame]
    exact hj
  · exact hH.closed j hj e' he' ((hclocked.before_iff hl hclocked' he he').1 hbefore)

theorem same_of_latest (hl : CausalLog log) (h : Latest n log H a) (h' : Latest m log H b) :
    MVRegister.Same a b := by
  constructor
  · intro p
    rw [h.mem_versions hl, h'.mem_versions hl]
  · intro k
    rw [h.vc k, h'.vc k]

theorem same_merge_iff (hl : CausalLog log) (hH : Causal log H) (hK : Causal log K)
    (h : Latest n log H a) (h' : Latest m log K b) :
    Same a (a.merge b).1 ↔ ¬ HasNews a b := by
  have hmerge := h.merge hl hH hK h'
  constructor
  · rintro ⟨hversions, _⟩ ⟨p, hp, hnot, hmax⟩
    have hpHK := (writtenIn_union log H K p).1 (.inr (h'.maxima.mem p hp))
    obtain ⟨q, hq, hpq⟩ := hmerge.maxima.cover p hpHK
    have hqa := (hversions q).2 hq
    rcases hpq with rfl | hbefore
    · exact hnot hqa
    · exact hmax q hqa hbefore
  · intro hnews
    have hHK : H ∪ K = H :=
      Finset.union_eq_left.2 (subset_of_no_news hl hH hK h h' hnews)
    rw [hHK] at hmerge
    exact same_of_latest hl h hmerge

theorem reports_merge_iff (hl : CausalLog log) (hH : Causal log H) (hK : Causal log K)
    (h : Latest n log H a) (h' : Latest m log K b) : ReportsChange Same a (a.merge b) ↔
      a.versions = [] ∧ b.versions = [] ∨ HasNews a b := by
  rw [ReportsChange, flag_merge, same_merge_iff hl hH hK h h', not_not]
  by_cases hnews : HasNews a b
  · have hne : ¬ (a.versions = [] ∧ b.versions = []) := by
      rintro ⟨_, hb⟩
      obtain ⟨p, hp, _⟩ := hnews
      rw [hb] at hp
      cases hp
    exact iff_of_true (iff_of_true hne hnews) (.inr hnews)
  · by_cases hempty : a.versions = [] ∧ b.versions = []
    · exact iff_of_true (iff_of_false (not_not.2 hempty) hnews) (.inl hempty)
    · refine iff_of_false (fun hiff => hnews (hiff.1 hempty)) ?_
      rintro (hc | hc)
      · exact hempty hc
      · exact hnews hc

end MVRegister

/-- The part of a replicator that takes syncs in: named states and the names with a callback. -/
structure CRDTReplicator (κ σ : Type) where
  crdts : Dict κ σ
  onChange : Finset κ

namespace CRDTReplicator

variable {κ σ δ : Type} [DecidableEq κ]

/-- One turn of the loop of `_on_sync`, with the names whose callbacks were called. -/
def syncOne (apply : σ → δ → σ × Bool) (acc : CRDTReplicator κ σ × List κ) (p : κ × δ) :
    CRDTReplicator κ σ × List κ :=
  match acc.1.crdts.get p.1 with
  | none => acc
  | some crdt =>
    let after := apply crdt p.2
    ({ acc.1 with crdts := acc.1.crdts.set p.1 after.1 },
      if after.2 ∧ p.1 ∈ acc.1.onChange then acc.2 ++ [p.1] else acc.2)

def onSync (apply : σ → δ → σ × Bool) (r : CRDTReplicator κ σ) (payload : Dict κ δ) :
    CRDTReplicator κ σ × List κ :=
  payload.items.foldl (syncOne apply) (r, [])

theorem onChange_syncOne (apply : σ → δ → σ × Bool) (acc : CRDTReplicator κ σ × List κ)
    (p : κ × δ) : (syncOne apply acc p).1.onChange = acc.1.onChange := by
  unfold syncOne
  cases acc.1.crdts.get p.1 <;> rfl

theorem get_syncOne (apply : σ → δ → σ × Bool) (acc : CRDTReplicator κ σ × List κ)
    (p : κ × δ) (name : κ) : (syncOne apply acc p).1.crdts.get name =
      if name = p.1 then (acc.1.crdts.get name).map (fun c => (apply c p.2).1)
      else acc.1.crdts.get name := by
  unfold syncOne
  cases hp : acc.1.crdts.get p.1 with
  | none =>
    by_cases hname : name = p.1
    · rw [if_pos hname, hname, hp]
      rfl
    · rw [if_neg hname]
  | some crdt =>
    dsimp only
    rw [Dict.get_set]
    by_cases hname : name = p.1
    · rw [if_pos hname, if_pos hname, hname, hp]
      rfl
    · rw [if_neg hname, if_neg hname]

theorem mem_syncOne (apply : σ → δ → σ × Bool) (acc : CRDTReplicator κ σ × List κ)
    (p : κ × δ) (name : κ) : name ∈ (syncOne apply acc p).2 ↔ name ∈ acc.2 ∨
      name = p.1 ∧ name ∈ acc.1.onChange ∧
        ∃ c, acc.1.crdts.get name = some c ∧ (apply c p.2).2 = true := by
  unfold syncOne
  cases hp : acc.1.crdts.get p.1 with
  | none =>
    dsimp only
    refine (or_iff_left ?_).symm
    rintro ⟨rfl, _, c, hc, _⟩
    rw [hp] at hc
    cases hc
  | some crdt =>
    dsimp only
    by_cases hfire : (apply crdt p.2).2 = true ∧ p.1 ∈ acc.1.onChange
    · rw [if_pos hfire, List.mem_append, List.mem_singleton]
      apply or_congr_right
      constructor
      · rintro rfl
        exact ⟨rfl, hfire.2, crdt, hp, hfire.1⟩
      · exact fun h => h.1
    · rw [if_neg hfire]
      refine (or_iff_left ?_).symm
      rintro ⟨rfl, hon, c, hc, hflag⟩
      rw [hp] at hc
      cases hc
      exact hfire ⟨hflag, hon⟩

theorem mem_foldl_syncOne (apply : σ → δ → σ × Bool) (l : List (κ × δ))
    (hl : (l.map Prod.fst).Nodup) (acc : CRDTReplicator κ σ × List κ) (name : κ) :
    (l.foldl (syncOne apply) acc).1.crdts.get name =
      (match l.lookup name with
      | some d => (acc.1.crdts.get name).map (fun c => (apply c d).1)
      | none => acc.1.crdts.get name) ∧
    (name ∈ (l.foldl (syncOne apply) acc).2 ↔ name ∈ acc.2 ∨ name ∈ acc.1.onChange ∧
      ∃ c d, acc.1.crdts.get name = some c ∧ l.lookup name = some d ∧ (apply c d).2 = true) := by
  induction l generalizing acc with
  | nil => simp
  | cons p l ih =>
    obtain ⟨k, d⟩ := p
    rw [List.map_cons, List.nodup_cons] at hl
    obtain ⟨hget, hmem⟩ := ih hl.2 (syncOne apply acc (k, d))
    rw [List.foldl_cons, hget, hmem, get_syncOne, mem_syncOne, onChange_syncOne]
    by_cases hname : name = k
    · subst hname
      have hnone : l.lookup name = none := lookup_eq_none_of_not_mem hl.1
      rw [hnone, List.lookup_cons_self, if_pos rfl]
      simp
    · rw [lookup_cons_ne hname, if_neg hname]
      simp [hname]

/-- With reports that are exact, the callbacks that a sync calls are those of the names whose state
is another one afterwards. -/
theorem mem_onSync_iff {apply : σ → δ → σ × Bool} {same : σ → σ → Prop} (hrefl : ∀ c, same c c)
    (hexact : ∀ c d, ReportsChange same c (apply c d)) (r : CRDTReplicator κ σ)
    (payload : Dict κ δ) (name : κ) : name ∈ (r.onSync apply payload).2 ↔
      name ∈ r.onChange ∧ ∃ c c', r.crdts.get name = some c ∧
        (r.onSync apply payload).1.crdts.get name = some c' ∧ ¬ same c c' := by
  obtain ⟨hget, hmem⟩ := mem_foldl_syncOne apply payload.items payload.nodup (r, []) name
  rw [onSync, hmem, hget]
  simp only [List.not_mem_nil, false_or]
  apply and_congr_right
  intro _
  cases payload.items.lookup name with
  | none =>
    constructor
    · rintro ⟨c, d, _, hnone, _⟩
      cases hnone
    · rintro ⟨c, c', hc, hc', hne⟩
      cases hc.symm.trans hc'
      exact absurd (hrefl c) hne
  | some d =>
    constructor
    · rintro ⟨c, d', hc, hd, hflag⟩
      cases hd
      refine ⟨c, (apply c d).1, hc, ?_, (hexact c d).1 hflag⟩
      rw [hc]
      rfl
    · rintro ⟨c, c', hc, hc', hne⟩
      dsimp only at hc'
      rw [hc] at hc'
      cases hc'
      exact ⟨c, d, hc, rfl, (hexact c d).2 hne⟩

end CRDTReplicator

section
variable {ν κ α τ ε : Type} [LinearOrder ν] [Inhabited ν] [DecidableEq κ] [LinearOrder τ]
  [DecidableEq ε] [SetOrder] [HasRepr ε] [BEq α]

/-- `merge` and `apply_digest` report exactly the changes of five types, of any states, and those
of a register, of any states of a run, as far as both registers are empty or the merged one has
news; a replicator then calls back exactly on changes. -/
theorem change_reports_iff {s : Replicas ν α (MVVersion ν α) (MVRegister ν α)}
    (hrun : RegisterRun ν α (.init MVRegister.replicaType) past s) :
    (∀ a b : GCounter ν,
      ExactReports GCounter.Same (·.merge b) (·.applyDigest b.digest) a) ∧
    (∀ a b : PNCounter ν,
      ExactReports PNCounter.Same (·.merge b) (·.applyDigest b.digest) a) ∧
    (∀ a b : ORSet ε, ExactReports ORSet.Same (·.merge b) (·.applyDigest b.digest) a) ∧
    (∀ a b : LWWMap ν κ α τ,
      ExactReports LWWMap.Same (·.merge b) (·.applyDigest b.digest) a) ∧
    (∀ a b : RGA ν α, ExactReports RGA.Same (·.merge b.elems) (·.applyDigest b.digest) a) ∧
    (∀ a b, Replicas.Held s a → Replicas.Held s b →
      (ReportsChange MVRegister.Same a (a.merge b) ↔
        a.versions = [] ∧ b.versions = [] ∨ MVRegister.HasNews a b) ∧
      (ReportsChange MVRegister.Same a (a.applyDigest b.digest) ↔
        a.versions = [] ∧ b.versions = [] ∨ MVRegister.HasNews a b) ∧
      (((a.applyDigest b.digest).1.applyDigest b.digest).2 = false ↔
        a.versions = [] ∧ b.versions = [])) ∧
    ∀ (σ δ : Type) (apply : σ → δ → σ × Bool) (same : σ → σ → Prop), (∀ c, same c c) →
      (∀ c d, ReportsChange same c (apply c d)) → ∀ (r : CRDTReplicator κ σ) payload name,
        name ∈ (r.onSync apply payload).2 ↔ name ∈ r.onChange ∧
          ∃ c c', r.crdts.get name = some c ∧
            (r.onSync apply payload).1.crdts.get name = some c' ∧ ¬ same c c' := by
  obtain ⟨hok, hlatest⟩ := latest_reflects.run hrun (fun p _ => Replicas.allows_true p.1 p.2)
  refine ⟨?_, ?_, ?_, ?_, ?_, ?_, ?_⟩
  · intro a b
    exact ⟨a.reports_merge b, a.reports_merge _, a.merge_again _⟩
  · intro a b
    let peer : PNCounter ν := ⟨⟨default, b.digest.p⟩, ⟨default, b.digest.n⟩⟩
    exact ⟨a.reports_merge b, a.reports_merge peer, a.merge_again peer⟩
  · intro a b
    exact ⟨a.reports_merge b, a.reports_merge _, a.merge_again _⟩
  · intro a b
    exact ⟨a.reports_merge b, a.reports_merge _, a.merge_again _⟩
  · intro a b
    exact ⟨a.reports_merge b.elems, a.reports_merge _, a.merge_again _⟩
  · intro a b ha hb
    obtain ⟨n, H, hH, h⟩ := hlatest.held hok ha
    obtain ⟨m, K, hK, h'⟩ := hlatest.held hok hb
    rw [MVRegister.applyDigest_digest, MVRegister.applyDigest_digest]
    have hiff := MVRegister.reports_merge_iff hok.log hH hK h h'
    exact ⟨hiff, hiff, MVRegister.flag_again a b⟩
  · intro σ δ apply same hrefl hexact r payload name
    exact r.mem_onSync_iff hrefl hexact payload name

end

theorem change_reports_iff_concurrent :
    ∃ past, ∃ s : Replicas String ℕ (MVVersion String ℕ) (MVRegister String ℕ),
      RegisterRun String ℕ (.init MVRegister.replicaType) past s ∧
      ReportsChange MVRegister.Same (s.state "a") ((s.state "a").merge (s.state "b")) := by
  obtain ⟨past, s, hrun, hs⟩ := exists_run_of_exec (Replicas.step MVRegister.replicaType)
    (Replicas.init MVRegister.replicaType) concurrentWrites
    (fun s => decide (∃ p ∈ (s.state "b").versions, p ∉ (s.state "a").versions ∧
      ∀ q ∈ (s.state "a").versions, p.2.compare q.2 ≠ .before)) true (by decide)
  obtain ⟨_, _, _, _, _, hregister, _⟩ :=
    @change_reports_iff String String ℕ ℤ ℕ _ _ _ _ _ _ _ _ _ _ hrun
  have hnews := of_decide_eq_true hs
  have hiff := hregister (s.state "a") (s.state "b") (.inl ⟨_, rfl⟩) (.inl ⟨_, rfl⟩)
  exact ⟨past, s, hrun, hiff.1.2 (.inr hnews)⟩

/-- A register that merges its own state reports a change where there is none. -/
theorem mvregister_reports_no_change :
    ∃ past, ∃ s : Replicas String ℕ (MVVersion String ℕ) (MVRegister String ℕ),
      RegisterRun String ℕ (.init MVRegister.replicaType) past s ∧
      ((s.state "a").merge (s.state "a")).2 = true ∧
      MVRegister.Same (s.state "a") ((s.state "a").merge (s.state "a")).1 := by
  obtain ⟨past, s, hrun, hs⟩ := exists_run_of_exec (Replicas.step MVRegister.replicaType)
    (Replicas.init MVRegister.replicaType) [.perform "a" 1]
    (fun s => decide (((s.state "a").merge (s.state "a")).2 = true ∧
      ((s.state "a").merge (s.state "a")).1.versions = (s.state "a").versions ∧
      ((s.state "a").merge (s.state "a")).1.vc = (s.state "a").vc)) true (by decide)
  obtain ⟨hflag, hversions, hvc⟩ := of_decide_eq_true hs
  refine ⟨past, s, hrun, hflag, fun p => ?_, fun k => ?_⟩
  · rw [hversions]
  · rw [hvc]

end Suprime
