import Suprime.Lockstep
import Suprime.Store

namespace Suprime
set_option autoImplicit true

/-- What may stand for each other once more versions were made. -/
structure Nudged [LinearOrder T] [Timestamp T] (R R' : T → T → Prop) : Prop where
  mono : ∀ {a b}, R a b → R' a b
  nudge : ∀ {a b}, R a b → R' (Timestamp.nudge a) (Timestamp.nudge b)

/-- Entries that differ at most in the reading of their version. -/
structure Entry.Rel (R : T → T → Prop) (e e' : Entry T ν α) : Prop where
  value : e.value = e'.value
  origin : e.version.origin = e'.version.origin
  deleted : e.deleted = e'.deleted
  ts : R e.version.ts e'.version.ts

structure EntryData.Rel (R : T → T → Prop) (e e' : EntryData T ν α) : Prop where
  value : e.value = e'.value
  origin : e.origin = e'.origin
  deleted : e.deleted = e'.deleted
  ts : R e.ts e'.ts

theorem Entry.Rel.imp {R R' : T → T → Prop} {e e' : Entry T ν α} (hR : ∀ {a b}, R a b → R' a b)
    (h : Entry.Rel R e e') : Entry.Rel R' e e' :=
  ⟨h.value, h.origin, h.deleted, hR h.ts⟩

theorem EntryData.Rel.imp {R R' : T → T → Prop} {e e' : EntryData T ν α}
    (hR : ∀ {a b}, R a b → R' a b) (h : EntryData.Rel R e e') : EntryData.Rel R' e e' :=
  ⟨h.value, h.origin, h.deleted, hR h.ts⟩

theorem Entry.Rel.toDict {R : T → T → Prop} {e e' : Entry T ν α} (h : Entry.Rel R e e') :
    EntryData.Rel R e.toDict e'.toDict :=
  ⟨congrArg some h.value, h.origin, congrArg some h.deleted, h.ts⟩

theorem EntryData.Rel.fromDict [PyNone α] {R : T → T → Prop} {e e' : EntryData T ν α}
    (h : EntryData.Rel R e e') : Entry.Rel R (Entry.fromDict e) (Entry.fromDict e') where
  value := by rw [Entry.fromDict, Entry.fromDict, h.value]
  origin := h.origin
  deleted := by rw [Entry.fromDict, Entry.fromDict, h.deleted]
  ts := h.ts

theorem Entry.Rel.lt_iff [LinearOrder T] [LinearOrder ν] {R : T → T → Prop}
    {e e' f f' : Entry T ν α} (hR : SameOrder R) (he : Entry.Rel R e e') (hf : Entry.Rel R f f') :
    e.version < f.version ↔ e'.version < f'.version := by
  rw [Version.lt_iff, Version.lt_iff, hR.lt_iff he.ts hf.ts, hR.eq_iff he.ts hf.ts, he.origin,
    hf.origin]

namespace DistributedStore

variable {T ν κ : Type} {α : Type u} {R R' : T → T → Prop} {s s' : DistributedStore T ν κ α}

/-- Stores that hold the same but for the readings in their versions. -/
structure Rel (R : T → T → Prop) (s s' : DistributedStore T ν κ α) : Prop where
  nodeId : s.nodeId = s'.nodeId
  data : Dict.Rel (Entry.Rel R) s.data s'.data
  highestTs : R s.highestTs s'.highestTs

namespace Rel

theorem items (h : Rel R s s') : s.items = s'.items := by
  have hlist : ∀ {l l' : List (κ × Entry T ν α)},
      List.Forall₂ (fun p q => p.1 = q.1 ∧ Entry.Rel R p.2 q.2) l l' →
        (l.filter (fun p => !p.2.deleted)).map (fun p => (p.1, p.2.value)) =
          (l'.filter (fun p => !p.2.deleted)).map (fun p => (p.1, p.2.value)) := by
    intro l l' hl
    induction hl with
    | nil => rfl
    | @cons p q l l' hpq _ ih =>
      rw [List.filter_cons, List.filter_cons, hpq.2.deleted]
      cases q.2.deleted with
      | true => exact ih
      | false =>
        rw [if_pos (by rfl), if_pos (by rfl), List.map_cons, List.map_cons, ih, hpq.1,
          hpq.2.value]
  exact hlist h.data

theorem digest (h : Rel R s s') : Dict.Rel (EntryData.Rel R) s.digest s'.digest :=
  h.data.map (fun _ _ he => he.toDict)

theorem imp (hR : ∀ {a b}, R a b → R' a b) (h : Rel R s s') : Rel R' s s' :=
  ⟨h.nodeId, h.data.imp (fun _ _ he => he.imp hR), hR h.highestTs⟩

section
variable [LinearOrder T] [Timestamp T]

theorem init (hR : R Timestamp.zero Timestamp.zero) (n : ν) :
    Rel R (DistributedStore.init n : DistributedStore T ν κ α) (.init n) :=
  ⟨rfl, .empty, hR⟩

theorem nextTs (hR : SameOrder R) (hR' : Nudged R R') (h : Rel R s s') (hc : R c c') :
    R' (s.nextTs c) (s'.nextTs c') := by
  rw [DistributedStore.nextTs, DistributedStore.nextTs]
  by_cases hle : c ≤ s.highestTs
  · rw [if_pos hle, if_pos ((hR hc h.highestTs).1 hle)]
    exact hR'.nudge h.highestTs
  · rw [if_neg hle, if_neg (fun hle' => hle ((hR hc h.highestTs).2 hle'))]
    exact hR'.mono hc

end

variable [DecidableEq κ]

theorem get (h : Rel R s s') (key : κ) (default : α) : s.get key default = s'.get key default := by
  rw [DistributedStore.get, DistributedStore.get]
  rcases rel_cases (h.data.get key) with ⟨hk, hk'⟩ | ⟨e, e', hk, hk', he⟩
  · simp only [hk, hk']
  · simp only [hk, hk', he.deleted, he.value]

theorem contains (h : Rel R s s') (key : κ) : s.contains key = s'.contains key := by
  rw [DistributedStore.contains, DistributedStore.contains]
  rcases rel_cases (h.data.get key) with ⟨hk, hk'⟩ | ⟨e, e', hk, hk', he⟩
  · simp only [hk, hk']
  · simp only [hk, hk', he.deleted]

section
variable [LinearOrder T] [Timestamp T]

theorem set (hR : SameOrder R) (hR' : Nudged R R') (h : Rel R s s') (hc : R c c') (key : κ)
    (value : α) : Rel R' (s.set key value c).store (s'.set key value c').store :=
  have hts := h.nextTs hR hR' hc
  ⟨h.nodeId, (h.imp hR'.mono).data.set key ⟨rfl, h.nodeId, rfl, hts⟩, hts⟩

theorem delete [PyNone α] (hR : SameOrder R) (hR' : Nudged R R') (h : Rel R s s') (hc : R c c')
    (key : κ) : Rel R' (s.delete key c).store (s'.delete key c').store := by
  have hts := h.nextTs hR hR' hc
  have hlater := h.imp hR'.mono
  rcases rel_cases (h.data.get key) with ⟨hk, hk'⟩ | ⟨e, e', hk, hk', he⟩
  · rw [delete_of_none hk, delete_of_none hk']
    exact hlater
  · rw [delete_of_some hk, delete_of_some hk']
    exact ⟨h.nodeId, hlater.data.set key ⟨rfl, h.nodeId, rfl, hts⟩, hts⟩

end

variable [LinearOrder T]

variable [LinearOrder ν]

theorem mergeEntry (hR : SameOrder R) (h : Rel R s s') (key : κ) (he : Entry.Rel R e e') :
    Rel R (s.mergeEntry key e).store (s'.mergeEntry key e').store := by
  have haccept : Rel R
      ⟨s.nodeId, s.data.set key e,
        if e.version.origin = s.nodeId ∧ e.version.ts > s.highestTs then e.version.ts
        else s.highestTs⟩
      ⟨s'.nodeId, s'.data.set key e',
        if e'.version.origin = s'.nodeId ∧ e'.version.ts > s'.highestTs then e'.version.ts
        else s'.highestTs⟩ := by
    refine ⟨h.nodeId, h.data.set key he, ?_⟩
    dsimp only
    by_cases hown : e.version.origin = s.nodeId ∧ e.version.ts > s.highestTs
    · rw [if_pos hown, if_pos (by
        rwa [← he.origin, ← h.nodeId, gt_iff_lt, ← hR.lt_iff h.highestTs he.ts])]
      exact he.ts
    · rw [if_neg hown, if_neg (by
        rwa [← he.origin, ← h.nodeId, gt_iff_lt, ← hR.lt_iff h.highestTs he.ts])]
      exact h.highestTs
  rcases rel_cases (h.data.get key) with ⟨hk, hk'⟩ | ⟨c, c', hk, hk', hc⟩
  · simp only [DistributedStore.mergeEntry, hk, hk']
    exact haccept
  · simp only [DistributedStore.mergeEntry, hk, hk']
    by_cases hlt : e.version > c.version
    · rw [if_pos hlt, if_pos ((hc.lt_iff hR he).1 hlt)]
      exact haccept
    · rw [if_neg hlt, if_neg (fun hlt' => hlt ((hc.lt_iff hR he).2 hlt'))]
      exact h

theorem merge (hR : SameOrder R) (h : Rel R s s')
    (hl : List.Forall₂ (fun p q => p.1 = q.1 ∧ Entry.Rel R p.2 q.2) l l') :
    Rel R (s.merge l).store (s'.merge l').store := by
  induction hl generalizing s s' with
  | nil => exact h
  | @cons p q l l' hpq _ ih =>
    obtain ⟨k, e⟩ := p
    obtain ⟨k', e'⟩ := q
    obtain ⟨rfl, he⟩ := hpq
    rw [merge_cons, merge_cons]
    exact ih (h.mergeEntry hR k he)

theorem applyDigest [PyNone α] (hR : SameOrder R) (h : Rel R s s')
    (hd : Dict.Rel (EntryData.Rel R) d d') :
    Rel R (s.applyDigest d).store (s'.applyDigest d').store := by
  apply h.merge hR
  rw [List.forall₂_map_left_iff, List.forall₂_map_right_iff]
  exact List.Forall₂.imp (fun p q hpq => ⟨hpq.1, hpq.2.fromDict⟩) hd

end Rel

end DistributedStore

end Suprime
