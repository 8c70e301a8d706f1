import Suprime.RgaShape

namespace Suprime
set_option autoImplicit true

variable {ν α : Type} [LinearOrder ν] [Inhabited ν]

namespace RGA

theorem Ok.visibleIds_eq {r : RGA ν α} (h : r.Ok log) (hl : log.Ok) (hc : CausallyClosed r.elems)
    {ids : List (ElemId ν)} (hids : ids.Pairwise (Before r.HangsBelow .ROOT))
    (hmem : ∀ c, c ∈ ids ↔ r.isShown c = true) : r.visibleIds = some ids := by
  obtain ⟨ids', hids', hbefore, hmem'⟩ := visibleIds_before h hl
  have hasymm : ∀ a b, Before r.HangsBelow .ROOT a b → ¬ Before r.HangsBelow .ROOT b a :=
    fun a b hab => Before.asymm (fun c p hcp => hangsBelow_lt h hl hcp)
      (fun c p q hp hq => hangsBelow_unique hp hq) hab
  have hsame : ids' = ids := by
    apply eq_of_pairwise_of_mem_iff hasymm hbefore hids
    intro c
    rw [hmem, hmem']
    constructor
    · exact fun hx => hx.1
    · intro hshown
      obtain ⟨e, he, -⟩ := isShown_eq_true.1 hshown
      exact ⟨hshown, h.exists_path hl hc he⟩
  rw [hids', hsame]

theorem exists_predecessor {par : ElemId ν → ElemId ν → Prop} {ids : List (ElemId ν)}
    (hsort : ids.Pairwise (Before par .ROOT))
    (hpath : ∀ x ∈ ids, ∃ w, w ≠ [] ∧ Path par .ROOT w x) (hk : k ≤ ids.length) :
    ∃ a w, predecessor ids k = some a ∧ Path par .ROOT w a ∧
      (∀ x ∈ ids.take k, x = a ∨ Before par .ROOT x a) ∧
      ∀ y ∈ ids.drop k, Before par .ROOT a y := by
  cases k with
  | zero =>
    refine ⟨.ROOT, [], rfl, .nil, ?_, ?_⟩
    · intro x hx
      cases hx
    · intro y hy
      obtain ⟨w, hne, hw⟩ := hpath y hy
      obtain ⟨c, w, rfl⟩ := List.exists_cons_of_ne_nil hne
      exact ⟨[], c :: w, .nil, hw, .nil⟩
  | succ j =>
    have hj : j < ids.length := hk
    obtain ⟨w, -, hw⟩ := hpath ids[j] (List.getElem_mem hj)
    have hsplit : ids = ids.take j ++ ids[j] :: ids.drop (j + 1) := by
      rw [← List.drop_eq_getElem_cons hj, List.take_append_drop]
    rw [hsplit] at hsort
    obtain ⟨-, hdrop, htake⟩ := List.pairwise_append.1 hsort
    refine ⟨ids[j], w, ?_, hw, ?_, ?_⟩
    · have hpos : ((j + 1 : ℕ) : ℤ) > 0 := by omega
      have hindex : (((j + 1 : ℕ) : ℤ) - 1).toNat = j := by omega
      rw [predecessor, if_pos hpos, hindex, List.getElem?_eq_getElem hj]
    · intro x hx
      rw [List.take_succ_eq_append_getElem hj] at hx
      cases List.mem_append.1 hx with
      | inl hx => exact .inr (htake x hx _ List.mem_cons_self)
      | inr hx => exact .inl (List.mem_singleton.1 hx)
    · intro y hy
      exact (List.pairwise_cons.1 hdrop).1 y hy

section
omit [Inhabited ν]

theorem Ok.lt_nextId {r : RGA ν α} (h : r.Ok log) (he : r.elems.get c = some e) :
    c < ⟨r.counter + 1, r.nodeId⟩ := by
  apply ElemId.lt_of_counter_lt
  exact Int.lt_add_one_of_le (h.counter c e he)

theorem Ok.get_nextId {r : RGA ν α} (h : r.Ok log) :
    r.elems.get ⟨r.counter + 1, r.nodeId⟩ = none := by
  apply Option.eq_none_iff_forall_ne_some.2
  intro e he
  exact lt_irrefl _ (h.lt_nextId he)

end

theorem Ok.visibleIds_insert {r r' : RGA ν α} (h : r.Ok log) (hl : log.Ok)
    (hc : CausallyClosed r.elems) (h' : r'.Ok log') (hl' : log'.Ok)
    (hc' : CausallyClosed r'.elems) (hids : r.visibleIds = some ids) (hk : k ≤ ids.length)
    (hins : r.insert k v = some (eid, r')) :
    eid = ⟨r.counter + 1, r.nodeId⟩ ∧ (∃ a, predecessor ids k = some a ∧ ∀ i, r'.elems.get i =
        if i = eid then some ⟨eid, v, a, false⟩ else r.elems.get i) ∧
      r'.visibleIds = some (ids.insertIdx k eid) := by
  obtain ⟨ids', hids', hsort, hmem⟩ := visibleIds_before h hl
  rw [hids, Option.some.injEq] at hids'
  subst hids'
  obtain ⟨a, w, ha, hw, htake, hdrop⟩ := exists_predecessor hsort (fun x hx => ((hmem x).1 hx).2) hk
  simp only [RGA.insert, hids, ha, Option.bind_eq_bind, Option.bind_some, Option.some.injEq,
    Prod.mk.injEq] at hins
  obtain ⟨heid, hr⟩ := hins
  have hnew : r.nextId.2.elems.get eid = none := by
    rw [← heid]
    exact h.get_nextId
  have hget : ∀ i, r'.elems.get i =
      if i = eid then some ⟨eid, v, a, false⟩ else r.elems.get i := by
    intro i
    rw [← hr, heid]
    exact elems_applyInsert hnew v a i
  have hpar : ∀ c p, r.HangsBelow c p → r'.HangsBelow c p := by
    rintro c p ⟨e, he, hp⟩
    refine ⟨e, ?_, hp⟩
    rw [hget, if_neg, he]
    intro hce
    rw [hce] at he
    cases hnew.symm.trans he
  have hhangs : r'.HangsBelow eid a := by
    refine ⟨⟨eid, v, a, false⟩, ?_, rfl⟩
    rw [hget, if_pos rfl]
  have hbig : ∀ d, r.HangsBelow d a → d < eid := by
    rintro d ⟨e, he, -⟩
    rw [← heid]
    exact h.lt_nextId he
  refine ⟨heid.symm, ⟨a, ha, hget⟩, ?_⟩
  apply h'.visibleIds_eq hl' hc'
  · apply pairwise_insertIdx ?_ hk
    · intro x hx
      cases htake x hx with
      | inl hx =>
        rw [hx]
        exact Before.child (hw.mono hpar) hhangs
      | inr hx => exact hx.to_child hpar hhangs
    · intro y hy
      exact (hdrop y hy).of_child hpar hhangs hbig
    · exact hsort.imp (fun hab => by
        obtain ⟨lx, ly, hx, hy, hlex⟩ := hab
        exact ⟨lx, ly, hx.mono hpar, hy.mono hpar, hlex⟩)
  · intro c
    rw [List.mem_insertIdx hk, isShown_eq_true, hget]
    by_cases hce : c = eid
    · rw [if_pos hce]
      exact iff_of_true (.inl hce) ⟨_, rfl, rfl⟩
    · rw [if_neg hce, ← isShown_eq_true]
      rw [hmem]
      constructor
      · intro hor
        exact (hor.resolve_left hce).1
      · intro hshown
        obtain ⟨e, he, -⟩ := isShown_eq_true.1 hshown
        exact .inr ⟨hshown, h.exists_path hl hc he⟩

theorem Ok.visibleIds_markDeleted {r : RGA ν α} (h : r.Ok log) (hl : log.Ok)
    (hc : CausallyClosed r.elems) (hids : r.visibleIds = some ids) (hk : k < ids.length) :
    (r.markDeleted ids[k]).visibleIds = some (ids.eraseIdx k) := by
  obtain ⟨ids', hids', hsort, hmem⟩ := visibleIds_before h hl
  rw [hids, Option.some.injEq] at hids'
  subst hids'
  have hpar : (r.markDeleted ids[k]).HangsBelow = r.HangsBelow := by
    funext c p
    exact propext (hangsBelow_markDeleted r ids[k] c p)
  have hnodup : ids.Nodup := by
    apply hsort.imp
    intro a b hab heq
    rw [heq] at hab
    exact Before.asymm (fun c p hcp => hangsBelow_lt h hl hcp)
      (fun c p q hp hq => hangsBelow_unique hp hq) hab hab
  apply (h.markDeleted ids[k]).visibleIds_eq hl (hc.markDeleted ids[k])
  · rw [hpar]
    exact hsort.sublist (List.eraseIdx_sublist ids k)
  · intro c
    rw [← hnodup.erase_getElem k hk, hnodup.mem_erase_iff, hmem, isShown_iff, isShown_iff,
      flagOf_markDeleted]
    by_cases hck : c = ids[k]
    · rw [if_pos hck]
      apply iff_of_false
      · exact fun hx => hx.1 hck
      · cases flagOf r.elems c <;> simp
    · rw [if_neg hck]
      constructor
      · exact fun hx => hx.2.1
      · intro hshown
        obtain ⟨e, he, -⟩ := isShown_eq_true.1 ((isShown_iff r c).2 hshown)
        exact ⟨hck, hshown, h.exists_path hl hc he⟩

def valueOf (r : RGA ν α) (i : ElemId ν) : Option α := (r.elems.get i).map Elem.value

theorem toList_of_visibleIds {r : RGA ν α} (h : r.visibleIds = some ids) :
    r.toList = some (ids.filterMap r.valueOf) := by
  simp only [toList, h, Option.bind_eq_bind, Option.bind_some]
  rfl

section
omit [Inhabited ν]

theorem exists_valueOf {r : RGA ν α} {ids : List (ElemId ν)}
    (hshown : ∀ c ∈ ids, r.isShown c = true) : ∀ i ∈ ids, ∃ v, r.valueOf i = some v := by
  intro i hi
  obtain ⟨e, he, -⟩ := isShown_eq_true.1 (hshown i hi)
  exact ⟨e.value, by rw [valueOf, he, Option.map_some]⟩

end

theorem Ok.toList_insert {r r' : RGA ν α} (h : r.Ok log) (hl : log.Ok)
    (hc : CausallyClosed r.elems) (h' : r'.Ok log') (hl' : log'.Ok)
    (hc' : CausallyClosed r'.elems) (hids : r.visibleIds = some ids)
    (hshown : ∀ c ∈ ids, r.isShown c = true) (hk : k ≤ ids.length)
    (hins : r.insert k v = some (eid, r')) :
    r'.toList = some ((ids.filterMap r.valueOf).insertIdx k v) := by
  obtain ⟨heid, ⟨a, -, hget⟩, hids'⟩ := h.visibleIds_insert hl hc h' hl' hc' hids hk hins
  have hnew : r'.valueOf eid = some v := by
    rw [valueOf, hget, if_pos rfl, Option.map_some]
  have hold : ∀ c ∈ ids, r'.valueOf c = r.valueOf c := by
    intro c hmem
    rw [valueOf, hget, if_neg, valueOf]
    intro hce
    obtain ⟨e, he, -⟩ := isShown_eq_true.1 (hshown c hmem)
    rw [hce, heid, h.get_nextId] at he
    cases he
  have hvalue : ∀ c ∈ ids, ∃ w, r'.valueOf c = some w := by
    intro c hmem
    rw [hold c hmem]
    exact exists_valueOf hshown c hmem
  rw [toList_of_visibleIds hids', ← List.filterMap_congr hold,
    ← filterMap_insertIdx hvalue hnew hk]

theorem Ok.toList_markDeleted {r : RGA ν α} (h : r.Ok log) (hl : log.Ok)
    (hc : CausallyClosed r.elems) (hids : r.visibleIds = some ids)
    (hshown : ∀ c ∈ ids, r.isShown c = true) (hk : k < ids.length) :
    (r.markDeleted ids[k]).toList = some ((ids.filterMap r.valueOf).eraseIdx k) := by
  have hsame : (r.markDeleted ids[k]).valueOf = r.valueOf := by
    funext c
    rw [valueOf, valueOf, elems_markDeleted]
    by_cases hck : c = ids[k]
    · rw [if_pos hck, Option.map_map]
      rfl
    · rw [if_neg hck]
  rw [toList_of_visibleIds (h.visibleIds_markDeleted hl hc hids hk), hsame,
    ← filterMap_eraseIdx (exists_valueOf hshown)]

end RGA

/-- A local edit of a replica in any reachable state is an edit of the list it shows. -/
theorem rga_edits_like_list {s : RgaSwarm ν α} (h : Run RgaSwarm.step RgaSwarm.init past s)
    (n : ν) : ∃ l, (s.replica n).toList = some l ∧
      (∀ (k : ℕ) v, k ≤ l.length → ∃ eid r, (s.replica n).insert k v = some (eid, r) ∧
        r.toList = some (l.insertIdx k v)) ∧
      ∀ k : ℕ, k < l.length → ∃ eid r, (s.replica n).delete k = some (some eid, r) ∧
        r.toList = some (l.eraseIdx k) := by
  have hs := RgaSwarm.Ok.of_run h
  have hok := hs.replica n
  have hclosed := (RgaSwarm.Closed.of_run h).replica n
  obtain ⟨ids, hids, hsort, hmem⟩ := RGA.visibleIds_before hok hs.log
  have hshown : ∀ c ∈ ids, (s.replica n).isShown c = true := fun c hc => ((hmem c).1 hc).1
  have hlen := length_filterMap_of_some (RGA.exists_valueOf hshown)
  refine ⟨ids.filterMap (s.replica n).valueOf, RGA.toList_of_visibleIds hids, ?_, ?_⟩
  · intro k v hk
    rw [hlen] at hk
    obtain ⟨a, w, ha, -⟩ := RGA.exists_predecessor hsort (fun x hx => ((hmem x).1 hx).2) hk
    obtain ⟨eid, r, hins⟩ : ∃ eid r, (s.replica n).insert k v = some (eid, r) := by
      simp only [RGA.insert, hids, ha, Option.bind_eq_bind, Option.bind_some]
      exact ⟨_, _, rfl⟩
    have hstep : s.step (.insert n k v) = some (s.inserted n eid r) := by
      simp only [RgaSwarm.step, hins, Option.bind_eq_bind, Option.bind_some]
    have hrun := h.next hstep
    have hs' := RgaSwarm.Ok.of_run hrun
    have hok' := hs'.replica n
    have hclosed' := (RgaSwarm.Closed.of_run hrun).replica n
    have hreplica : (s.inserted n eid r).replica n = r := Function.update_self _ _ _
    rw [hreplica] at hok' hclosed'
    exact ⟨eid, r, hins,
      hok.toList_insert hs.log hclosed hok' hs'.log hclosed' hids hshown hk hins⟩
  · intro k hk
    rw [hlen] at hk
    have hdel : (s.replica n).delete k =
        some (some ids[k], (s.replica n).markDeleted ids[k]) := by
      have hrange : ¬ ((k : ℤ) < 0 ∨ (k : ℤ) ≥ ids.length) := by omega
      simp only [RGA.delete, hids, Option.bind_eq_bind, Option.bind_some, if_neg hrange,
        Int.toNat_natCast, List.getElem?_eq_getElem hk]
    exact ⟨ids[k], _, hdel, hok.toList_markDeleted hs.log hclosed hids hshown hk⟩

theorem rga_edits_like_list_concurrent :
    ∃ past, ∃ s : RgaSwarm String Char, Run RgaSwarm.step RgaSwarm.init past s ∧
      (s.replica "a").toList = some ['z', 'x'] ∧
      ∃ eid r, (s.replica "a").insert 1 'w' = some (eid, r) ∧
        r.toList = some ['z', 'w', 'x'] := by
  obtain ⟨past, s, hr, hs⟩ := exists_run_of_exec RgaSwarm.step RgaSwarm.init concurrentInserts
    (fun s => (s.replica "a").toList) (some ['z', 'x']) (by decide)
  obtain ⟨l, hl, hinsert, -⟩ := rga_edits_like_list hr "a"
  rw [hs, Option.some.injEq] at hl
  rw [← hl] at hinsert
  exact ⟨past, s, hr, hs, hinsert 1 'w' (by decide)⟩

end Suprime
