import Suprime.RgaEdits
import Suprime.WalkDepth

namespace Suprime
set_option autoImplicit true

variable {ν α : Type} [LinearOrder ν] [Inhabited ν]

/-- The nested calls of `walk` that the recursion limit leaves. -/
def recursionLimit : ℕ := 1000

namespace RGA

def visibleIdsWithin (limit : ℕ) (r : RGA ν α) : Option (List (ElemId ν)) :=
  walk r.childrenOf r.isShown limit .ROOT

/-- An operation that walks the document before anything else: `none` stands for the
`RecursionError` too. -/
def within (limit : ℕ) (r : RGA ν α) (op : Option β) : Option β :=
  (r.visibleIdsWithin limit).bind (fun _ => op)

def toListWithin (limit : ℕ) (r : RGA ν α) : Option (List α) := r.within limit r.toList

/-- `__len__` -/
def lenWithin (limit : ℕ) (r : RGA ν α) : Option ℕ := (r.visibleIdsWithin limit).map List.length

def insertWithin (limit : ℕ) (r : RGA ν α) (index : ℤ) (value : α) :
    Option (ElemId ν × RGA ν α) := r.within limit (r.insert index value)

def deleteWithin (limit : ℕ) (r : RGA ν α) (index : ℤ) :
    Option (Option (ElemId ν) × RGA ν α) := r.within limit (r.delete index)

/-- Reads and edits at every position succeed. -/
structure Readable (limit : ℕ) (r : RGA ν α) : Prop where
  toList : ∃ l, r.toListWithin limit = some l
  edits : ∃ k, r.lenWithin limit = some k ∧
    (∀ (index : ℤ) value, index ≤ k → ∃ x, r.insertWithin limit index value = some x) ∧
    ∀ index, ∃ x, r.deleteWithin limit index = some x

/-- No element has `limit` elements or more on its chain of predecessors, itself included. -/
def Shallow (limit : ℕ) (r : RGA ν α) : Prop :=
  ∀ c e, r.elems.get c = some e → ∀ w, Path r.HangsBelow .ROOT w c → w.length < limit

section
omit [LinearOrder ν]

theorem exists_predecessor_of_le {ids : List (ElemId ν)} {index : ℤ}
    (h : index ≤ (ids.length : ℤ)) : ∃ a, predecessor ids index = some a := by
  rw [predecessor]
  by_cases hpos : index > 0
  · have hlt : (index - 1).toNat < ids.length := by omega
    rw [if_pos hpos, List.getElem?_eq_getElem hlt]
    exact ⟨_, rfl⟩
  · rw [if_neg hpos]
    exact ⟨_, rfl⟩

end

theorem visibleIdsWithin_eq {r : RGA ν α} {limit : ℕ} (h : r.visibleIdsWithin limit = some ids)
    (hids : r.visibleIds = some ids') : ids = ids' := by
  have hmono := walk_mono h (le_max_left limit (r.elems.items.length + 1))
  have hmono' := walk_mono hids (le_max_right limit (r.elems.items.length + 1))
  rw [hmono, Option.some.injEq] at hmono'
  exact hmono'

theorem readable_iff {r : RGA ν α} (limit : ℕ) (hids : r.visibleIds = some ids) :
    r.Readable limit ↔ ∃ ids, r.visibleIdsWithin limit = some ids := by
  constructor
  · intro h
    obtain ⟨l, hl⟩ := h.toList
    obtain ⟨ids, hwithin, -⟩ := Option.bind_eq_some_iff.1 hl
    exact ⟨ids, hwithin⟩
  · rintro ⟨ids', hwithin⟩
    have hsame := visibleIdsWithin_eq hwithin hids
    subst hsame
    constructor
    · rw [toListWithin, within, hwithin, Option.bind_some, toList_of_visibleIds hids]
      exact ⟨_, rfl⟩
    · refine ⟨ids'.length, by rw [lenWithin, hwithin, Option.map_some], ?_, ?_⟩
      · intro index value hindex
        obtain ⟨a, ha⟩ := exists_predecessor_of_le hindex
        simp only [insertWithin, within, hwithin, Option.bind_some, RGA.insert, hids, ha,
          Option.bind_eq_bind]
        exact ⟨_, rfl⟩
      · intro index
        simp only [deleteWithin, within, hwithin, Option.bind_some, RGA.delete, hids,
          Option.bind_eq_bind]
        by_cases hout : index < 0 ∨ index ≥ ids'.length
        · rw [if_pos hout]
          exact ⟨_, rfl⟩
        · have hlt : index.toNat < ids'.length := by omega
          rw [if_neg hout, List.getElem?_eq_getElem hlt]
          exact ⟨_, rfl⟩

theorem visibleIdsWithin_iff {r : RGA ν α} (h : r.Linked) {limit : ℕ} (hpos : 0 < limit) :
    (∃ ids, r.visibleIdsWithin limit = some ids) ↔ r.Shallow limit := by
  rw [visibleIdsWithin, walk_isSome_iff h]
  constructor
  · intro hw c e _ w hc
    exact hw w c hc
  · intro hshallow w x hw
    cases List.eq_nil_or_concat w with
    | inl hnil =>
      rw [hnil]
      exact hpos
    | inr hconcat =>
      obtain ⟨m, y, rfl⟩ := hconcat
      rw [List.concat_eq_append] at hw ⊢
      obtain ⟨-, q, ⟨e, he, -⟩, -⟩ := hw.snoc_inv
      exact hshallow x e he _ hw

end RGA

namespace RgaSwarm

/-- A step under the recursion limit: local edits walk the document first. -/
def stepWithin (limit : ℕ) (s : RgaSwarm ν α) (a : RgaAction ν α) : Option (RgaSwarm ν α) :=
  match a with
  | .insert n _ _ => (s.replica n).within limit (s.step a)
  | .append n _ => (s.replica n).within limit (s.step a)
  | .delete n _ => (s.replica n).within limit (s.step a)
  | _ => s.step a

theorem step_of_stepWithin {s s' : RgaSwarm ν α} (h : s.stepWithin limit a = some s') :
    s.step a = some s' := by
  cases a with
  | insert n index value =>
    obtain ⟨ids, -, hs⟩ := Option.bind_eq_some_iff.1 h
    exact hs
  | append n value =>
    obtain ⟨ids, -, hs⟩ := Option.bind_eq_some_iff.1 h
    exact hs
  | delete n index =>
    obtain ⟨ids, -, hs⟩ := Option.bind_eq_some_iff.1 h
    exact hs
  | share n => exact h
  | merge n i => exact h
  | applyDigest n i => exact h

theorem run_of_runWithin {s : RgaSwarm ν α}
    (h : Run (RgaSwarm.stepWithin limit) RgaSwarm.init past s) :
    Run RgaSwarm.step RgaSwarm.init past s := by
  induction h with
  | start => exact .start
  | next _ hs ih => exact ih.next (step_of_stepWithin hs)

end RgaSwarm

/-- A replica in a reachable state can be read and edited exactly when its longest chain of
predecessors stays below the recursion limit. -/
theorem rga_readable_iff {s : RgaSwarm ν α}
    (h : Run (RgaSwarm.stepWithin recursionLimit) RgaSwarm.init past s) (n : ν) :
    (s.replica n).Readable recursionLimit ↔ (s.replica n).Shallow recursionLimit := by
  have hs := RgaSwarm.Ok.of_run (RgaSwarm.run_of_runWithin h)
  obtain ⟨ids, hids, -⟩ := RGA.visibleIds_spec (hs.replica n) hs.log
  rw [RGA.readable_iff recursionLimit hids]
  exact RGA.visibleIdsWithin_iff (hs.replica n).children (by decide)

namespace RGA

/-- A document that was typed from left to right: `k` elements, each after the one before. -/
structure Typed (k : ℕ) (r : RGA ν α) : Prop where
  listed : ∃ ids a w, r.visibleIds = some ids ∧ ids.length = k ∧ predecessor ids k = some a ∧
    Path r.HangsBelow .ROOT w a ∧ w.length = k ∧ ∀ c e, r.elems.get c = some e → c ∈ ids

theorem visibleIds_init (n : ν) : (RGA.init n : RGA ν α).visibleIds = some [] := by
  have hchildren : (RGA.init n : RGA ν α).childrenOf .ROOT = [] := by
    rw [childrenOf, RGA.init, Dict.get_set_self, Option.getD_some]
  rw [visibleIds, walk, hchildren, gather]

theorem Typed.init (n : ν) : (RGA.init n : RGA ν α).Typed 0 where
  listed := ⟨[], .ROOT, [], visibleIds_init n, rfl, rfl, .nil, rfl, fun c e he => by cases he⟩

theorem Typed.visibleIdsWithin {r : RGA ν α} (h : r.Typed k) (hok : r.Ok log) (hl : log.Ok)
    (hk : k < limit) : ∃ ids, r.visibleIdsWithin limit = some ids := by
  obtain ⟨ids, -, -, -, hlen, -, -, -, hall⟩ := h.listed
  have hlt : ∀ p, ∀ c ∈ r.childrenOf p, p < c ∧ c ∈ ids.toFinset := by
    intro p c hc
    have hb := (hok.children p c).1 hc
    have hpc := hangsBelow_lt hok hl hb
    obtain ⟨e, he, -⟩ := hb
    exact ⟨hpc, List.mem_toFinset.2 (hall c e he)⟩
  apply walk_isSome r.childrenOf r.isShown _ hlt
  have hfilter := Finset.card_filter_le ids.toFinset (ElemId.ROOT < ·)
  have hcard := ids.toFinset_card_le
  omega

theorem Typed.append {r r' : RGA ν α} (h : r.Typed k) (hok : r.Ok log) (hl : log.Ok)
    (hc : CausallyClosed r.elems) (hok' : r'.Ok log') (hl' : log'.Ok)
    (hc' : CausallyClosed r'.elems) (hins : r.append v = some (eid, r')) : r'.Typed (k + 1) := by
  obtain ⟨ids, a, w, hids, hlen, ha, hw, hwlen, hall⟩ := h.listed
  have hins : r.insert (k : ℕ) v = some (eid, r') := by
    simp only [RGA.append, hids, Option.bind_eq_bind, Option.bind_some, hlen] at hins
    exact hins
  obtain ⟨heid, ⟨b, hb, hget⟩, hids'⟩ :=
    hok.visibleIds_insert hl hc hok' hl' hc' hids hlen.ge hins
  rw [ha, Option.some.injEq] at hb
  subst hb
  have hlen' : (ids.insertIdx k eid).length = k + 1 := by
    rw [List.length_insertIdx_of_le_length hlen.ge, hlen]
  have hlast : (ids.insertIdx k eid)[k]? = some eid := by
    rw [List.getElem?_insertIdx_self, if_pos hlen.ge]
  have hpar : ∀ c p, r.HangsBelow c p → r'.HangsBelow c p := by
    rintro c p ⟨e, he, hp⟩
    refine ⟨e, ?_, hp⟩
    rw [hget, if_neg, he]
    intro hce
    rw [hce, heid, hok.get_nextId] at he
    cases he
  have hhangs : r'.HangsBelow eid a := ⟨⟨eid, v, a, false⟩, by rw [hget, if_pos rfl], rfl⟩
  constructor
  refine ⟨_, eid, w ++ [eid], hids', hlen', ?_, (hw.mono hpar).snoc hhangs, ?_, ?_⟩
  · have hpos : ((k + 1 : ℕ) : ℤ) > 0 := by omega
    have hindex : (((k + 1 : ℕ) : ℤ) - 1).toNat = k := by omega
    rw [predecessor, if_pos hpos, hindex, hlast]
  · rw [List.length_append, List.length_singleton, hwlen]
  · intro c e he
    rw [List.mem_insertIdx hlen.ge]
    rw [hget] at he
    by_cases hce : c = eid
    · exact .inl hce
    · rw [if_neg hce] at he
      exact .inr (hall c e he)

end RGA

theorem exists_run_of_appends (n : ν) (v : α) {limit : ℕ} (hk : k ≤ limit) :
    ∃ past, ∃ s : RgaSwarm ν α, Run (RgaSwarm.stepWithin limit) RgaSwarm.init past s ∧
      past.map Prod.snd = List.replicate k (.append n v) ∧ (s.replica n).Typed k := by
  induction k with
  | zero => exact ⟨[], .init, .start, rfl, .init n⟩
  | succ k ih =>
    obtain ⟨past, s, hr, hpast, htyped⟩ := ih (Nat.le_of_succ_le hk)
    have hrun := RgaSwarm.run_of_runWithin hr
    have hs := RgaSwarm.Ok.of_run hrun
    have hclosed := RgaSwarm.Closed.of_run hrun
    obtain ⟨ids, hwithin⟩ := htyped.visibleIdsWithin (hs.replica n) hs.log hk
    obtain ⟨ids', a, -, hids, hlen, ha, -⟩ := htyped.listed
    obtain ⟨eid, r, happend⟩ : ∃ eid r, (s.replica n).append v = some (eid, r) := by
      simp only [RGA.append, hids, hlen, RGA.insert, ha, Option.bind_eq_bind, Option.bind_some]
      exact ⟨_, _, rfl⟩
    have hstep : s.stepWithin limit (.append n v) = some (s.inserted n eid r) := by
      simp only [RgaSwarm.stepWithin, RGA.within, hwithin, Option.bind_some, RgaSwarm.step,
        happend, Option.bind_eq_bind]
    have hnext := hr.next hstep
    have hs' := RgaSwarm.Ok.of_run (RgaSwarm.run_of_runWithin hnext)
    have hok' := hs'.replica n
    have hc' := (RgaSwarm.Closed.of_run (RgaSwarm.run_of_runWithin hnext)).replica n
    have hreplica : (s.inserted n eid r).replica n = r := Function.update_self _ _ _
    refine ⟨_, _, hnext, ?_, ?_⟩
    · rw [List.map_cons, hpast, List.replicate_succ]
    · rw [hreplica] at hok' hc' ⊢
      exact htyped.append (hs.replica n) hs.log (hclosed.replica n) hok' hs'.log hc' happend

/-- A thousand appends of one node, and its document can no longer be read. -/
theorem thousand_appends_unreadable :
    ∃ past, ∃ s : RgaSwarm String Char,
      Run (RgaSwarm.stepWithin recursionLimit) RgaSwarm.init past s ∧
      past.map Prod.snd = List.replicate 1000 (.append "a" 'x') ∧
      ¬ (s.replica "a").Readable recursionLimit := by
  obtain ⟨past, s, hr, hpast, htyped⟩ :=
    exists_run_of_appends "a" 'x' (le_refl recursionLimit)
  refine ⟨past, s, hr, hpast, ?_⟩
  rw [rga_readable_iff hr]
  intro hshallow
  obtain ⟨ids, a, w, -, -, -, hw, hlen, -⟩ := htyped.listed
  obtain ⟨m, x, rfl⟩ := List.eq_nil_or_concat w |>.resolve_left (by
    intro hnil
    rw [hnil] at hlen
    cases hlen)
  have hsnoc := hw
  rw [List.concat_eq_append] at hsnoc
  obtain ⟨-, q, ⟨e, he, -⟩, -⟩ := hsnoc.snoc_inv
  exact absurd (hshallow a e he _ hw) (by omega)

theorem rga_readable_iff_typed :
    ∃ past, ∃ s : RgaSwarm String Char,
      Run (RgaSwarm.stepWithin recursionLimit) RgaSwarm.init past s ∧
      ((s.replica "a").Readable recursionLimit ↔ (s.replica "a").Shallow recursionLimit) := by
  obtain ⟨past, s, hr, -⟩ :=
    exists_run_of_appends "a" 'x' (show 3 ≤ recursionLimit by decide)
  exact ⟨past, s, hr, rga_readable_iff hr "a"⟩

end Suprime
