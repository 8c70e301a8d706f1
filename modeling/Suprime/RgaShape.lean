import Suprime.RgaSwarm

namespace Suprime
set_option autoImplicit true

variable {ν α : Type} [LinearOrder ν] [Inhabited ν]

/-- Every recorded predecessor is the root or present. -/
def CausallyClosed (elems : Dict (ElemId ν) (Elem ν α)) : Prop :=
  ∀ i e, elems.get i = some e → e.after = .ROOT ∨ ∃ e', elems.get e.after = some e'

theorem CausallyClosed.of_get_eq {elems elems' : Dict (ElemId ν) (Elem ν α)}
    (h : CausallyClosed elems) (he : ∀ i, elems'.get i = elems.get i) : CausallyClosed elems' := by
  intro i e hi
  rw [he] at hi
  rw [he]
  exact h i e hi

namespace RGA

section
omit [Inhabited ν]

theorem present_merge (r : RGA ν α) (other : Dict (ElemId ν) (Elem ν α)) (i : ElemId ν) :
    (∃ e, (r.merge other).1.elems.get i = some e) ↔
      (∃ e, r.elems.get i = some e) ∨ ∃ e, other.get i = some e := by
  have hflag := r.flagOf_merge other i
  simp only [flagOf] at hflag
  cases hm : (r.merge other).1.elems.get i <;> cases hr : r.elems.get i <;>
    cases ho : other.get i <;> simp [hm, hr, ho, joinFlag] at hflag ⊢

end

end RGA

theorem CausallyClosed.merge {log : InsertLog ν α} (hl : log.Ok) {r : RGA ν α} (hr : r.Ok log)
    {other : Dict (ElemId ν) (Elem ν α)} (ho : ElemsLogged log other)
    (h : CausallyClosed r.elems) (h' : CausallyClosed other) :
    CausallyClosed (r.merge other).1.elems := by
  intro i e he
  have hlogged := ((hr.merge ho).logged i e he).2
  rw [RGA.present_merge]
  cases (r.present_merge other i).1 ⟨e, he⟩ with
  | inl hi =>
    obtain ⟨e', he'⟩ := hi
    have hsame := hl.eq_of_id hlogged (hr.logged i e' he').2 rfl
    simp only [Prod.mk.injEq, true_and] at hsame
    rw [hsame.2]
    exact (h i e' he').imp_right .inl
  | inr hi =>
    obtain ⟨e', he'⟩ := hi
    have hsame := hl.eq_of_id hlogged (ho i e' he').2 rfl
    simp only [Prod.mk.injEq, true_and] at hsame
    rw [hsame.2]
    exact (h' i e' he').imp_right .inr

theorem CausallyClosed.markDeleted {r : RGA ν α} (h : CausallyClosed r.elems) (eid : ElemId ν) :
    CausallyClosed (r.markDeleted eid).elems := by
  intro i e he
  obtain ⟨e', he', -, -, hafter⟩ := RGA.elems_markDeleted_cases he
  rw [← hafter]
  cases h i e' he' with
  | inl hroot => exact .inl hroot
  | inr hpresent =>
    obtain ⟨p, hp⟩ := hpresent
    right
    rw [RGA.elems_markDeleted]
    by_cases hi : e'.after = eid
    · rw [if_pos hi, hp]
      exact ⟨_, rfl⟩
    · rw [if_neg hi]
      exact ⟨p, hp⟩

theorem CausallyClosed.applyInsert {r : RGA ν α} (h : CausallyClosed r.elems) {after : ElemId ν}
    (ha : after = .ROOT ∨ ∃ e, r.elems.get after = some e) (eid : ElemId ν) (value : α) :
    CausallyClosed (r.applyInsert eid value after).elems := by
  cases hk : r.elems.get eid with
  | some e =>
    rw [RGA.applyInsert_of_some hk]
    exact h
  | none =>
    have hkeep : ∀ p, (∃ e, r.elems.get p = some e) →
        ∃ e, (r.applyInsert eid value after).elems.get p = some e := by
      intro p hp
      rw [RGA.elems_applyInsert hk]
      by_cases hpe : p = eid
      · rw [if_pos hpe]
        exact ⟨_, rfl⟩
      · rw [if_neg hpe]
        exact hp
    intro i e he
    rw [RGA.elems_applyInsert hk] at he
    by_cases hi : i = eid
    · rw [if_pos hi] at he
      cases he
      exact ha.imp_right (hkeep after)
    · rw [if_neg hi] at he
      exact (h i e he).imp_right (hkeep e.after)

namespace RgaSwarm

/-- What every replica and every shared state keeps. -/
structure Closed (s : RgaSwarm ν α) : Prop where
  replica : ∀ n, CausallyClosed (s.replica n).elems
  shared : ∀ x ∈ s.shared, CausallyClosed x.elems

theorem Closed.init : (RgaSwarm.init : RgaSwarm ν α).Closed where
  replica n i e h := by cases h
  shared x hx := by cases hx

theorem Closed.update {s : RgaSwarm ν α} {r : RGA ν α} (h : s.Closed)
    (hr : CausallyClosed r.elems) (n : ν) (K : ν → List (Edit ν)) (l : InsertLog ν α) :
    (⟨Function.update s.replica n r, s.shared, K, l⟩ : RgaSwarm ν α).Closed where
  replica m := by
    by_cases hm : m = n
    · simp only [hm, Function.update_self]
      exact hr
    · simp only [Function.update_of_ne hm]
      exact h.replica m
  shared := h.shared

theorem present_of_mem_visibleIds {s : RgaSwarm ν α} (hs : s.Ok)
    (hids : (s.replica n).visibleIds = some ids) (hx : x ∈ ids) :
    ∃ e, (s.replica n).elems.get x = some e := by
  obtain ⟨ids', hids', -, hmem⟩ := RGA.visibleIds_spec (hs.replica n) hs.log
  rw [hids, Option.some.injEq] at hids'
  subst hids'
  have hshown := ((s.replica n).isShown_iff x).1 ((hmem x).1 hx).1
  obtain ⟨e, he, _⟩ := Option.map_eq_some_iff.1 hshown
  exact ⟨e, he⟩

theorem Closed.insert {s : RgaSwarm ν α} (hs : s.Ok) (h : s.Closed)
    (hi : (s.replica n).insert index value = some (eid, r)) : (s.inserted n eid r).Closed := by
  obtain ⟨ids, after, hids, ha, -, rfl⟩ := RGA.insert_spec hi
  have hafter := ha.imp_right (present_of_mem_visibleIds hs hids)
  exact h.update (CausallyClosed.applyInsert (r := (s.replica n).nextId.2) (h.replica n) hafter eid
    value) n _ _

theorem Closed.merge {s : RgaSwarm ν α} {K : List (Edit ν)} (hs : s.Ok) (h : s.Closed) (n : ν)
    {other : Dict (ElemId ν) (Elem ν α)} (ho : ElemsLogged s.log other)
    (hc : CausallyClosed other) : (s.incorporated n ((s.replica n).merge other).1 K).Closed :=
  h.update (CausallyClosed.merge hs.log (hs.replica n) ho (h.replica n) hc) n _ _

theorem Closed.step {s s' : RgaSwarm ν α} (hs : s.Ok) (h : s.Closed)
    (hstep : s.step a = some s') : s'.Closed := by
  cases a with
  | insert n index value =>
    obtain ⟨⟨eid, r⟩, hi, hstep⟩ := Option.bind_eq_some_iff.1 hstep
    cases hstep
    exact h.insert hs hi
  | append n value =>
    obtain ⟨⟨eid, r⟩, ha, hstep⟩ := Option.bind_eq_some_iff.1 hstep
    cases hstep
    obtain ⟨index, hi⟩ := RGA.append_spec ha
    exact h.insert hs hi
  | delete n index =>
    obtain ⟨⟨eid, r⟩, hd, hstep⟩ := Option.bind_eq_some_iff.1 hstep
    cases hstep
    have hr : CausallyClosed r.elems := by
      cases RGA.delete_spec hd with
      | inl hnone =>
        rw [hnone.2]
        exact h.replica n
      | inr hsome =>
        obtain ⟨ids, i, -, -, -, rfl⟩ := hsome
        exact (h.replica n).markDeleted i
    exact h.update hr n _ _
  | share n =>
    cases hstep
    refine ⟨h.replica, ?_⟩
    intro x hx
    cases List.mem_append.1 hx with
    | inl hx => exact h.shared x hx
    | inr hx =>
      rw [List.mem_singleton.1 hx]
      exact h.replica n
  | merge n i =>
    obtain ⟨x, hx, hstep⟩ := Option.bind_eq_some_iff.1 hstep
    cases hstep
    have hmem := List.mem_of_getElem? hx
    exact h.merge hs n (hs.shared x hmem).1 (h.shared x hmem)
  | applyDigest n i =>
    obtain ⟨x, hx, hstep⟩ := Option.bind_eq_some_iff.1 hstep
    cases hstep
    have hmem := List.mem_of_getElem? hx
    obtain ⟨hlogged, -, hget⟩ := hs.shared x hmem
    apply h.merge hs n
    · intro i e he
      rw [hget] at he
      exact hlogged i e he
    · exact (h.shared x hmem).of_get_eq hget

theorem Closed.of_run {s : RgaSwarm ν α} (h : Run RgaSwarm.step RgaSwarm.init past s) :
    s.Closed := by
  have hboth : s.Ok ∧ s.Closed :=
    h.invariant (I := fun s => s.Ok ∧ s.Closed) (C := fun _ _ => True) (fun _ _ => trivial)
      ⟨.init, .init⟩ (fun _ _ _ hs _ hstep => ⟨hs.1.step hstep, hs.2.step hs.1 hstep⟩)
  exact hboth.2

end RgaSwarm

namespace RGA

/-- Every element is connected to the root: predecessors have smaller ids, of which there are
finitely many. -/
theorem Ok.exists_path {r : RGA ν α} (h : r.Ok log) (hl : log.Ok)
    (hc : CausallyClosed r.elems) (he : r.elems.get c = some e) :
    ∃ w, w ≠ [] ∧ Path r.HangsBelow .ROOT w c := by
  induction hn : (r.elems.keys.toFinset.filter (· < c)).card using Nat.strong_induction_on
    generalizing c e with
  | _ k ih =>
    have hhangs : r.HangsBelow c e.after := ⟨e, he, rfl⟩
    cases hc c e he with
    | inl hroot =>
      rw [hroot] at hhangs
      exact ⟨[c], by simp, .cons hhangs .nil⟩
    | inr hpresent =>
      obtain ⟨p, hp⟩ := hpresent
      have hlt := hangsBelow_lt h hl hhangs
      have hss : r.elems.keys.toFinset.filter (· < e.after) ⊂
          r.elems.keys.toFinset.filter (· < c) := by
        rw [Finset.ssubset_iff_of_subset]
        · refine ⟨e.after, ?_, by simp⟩
          exact Finset.mem_filter.2 ⟨List.mem_toFinset.2 (Dict.mem_keys.2 ⟨p, hp⟩), hlt⟩
        · intro x hx
          rw [Finset.mem_filter] at hx ⊢
          exact ⟨hx.1, hx.2.trans hlt⟩
      have hcard := Finset.card_lt_card hss
      rw [hn] at hcard
      obtain ⟨w, -, hw⟩ := ih _ hcard hp rfl
      exact ⟨w ++ [c], by simp, hw.snoc hhangs⟩

/-- The representation invariant. -/
structure Shaped (r : RGA ν α) : Prop where
  once : ∀ c e, r.elems.get c = some e →
    ∀ p, (r.childrenOf p).count c = if p = e.after then 1 else 0
  present : ∀ p, ∀ c ∈ r.childrenOf p, ∃ e, r.elems.get c = some e
  descending : ∀ p, (r.childrenOf p).Pairwise (fun a b => b < a)
  after : ∀ c e, r.elems.get c = some e →
    (e.after = .ROOT ∨ ∃ e', r.elems.get e.after = some e') ∧ e.after < c
  counter : ∀ c e, r.elems.get c = some e → c.counter ≤ r.counter
  visible : ∃ ids, r.visibleIds = some ids ∧ ids.Nodup ∧
    ∀ c, c ∈ ids ↔ ∃ e, r.elems.get c = some e ∧ e.deleted = false

section
omit [Inhabited ν]

theorem isShown_eq_true {r : RGA ν α} {c : ElemId ν} :
    r.isShown c = true ↔ ∃ e, r.elems.get c = some e ∧ e.deleted = false := by
  rw [isShown_iff, flagOf, Option.map_eq_some_iff]

end

theorem Ok.shaped {r : RGA ν α} (h : r.Ok log) (hl : log.Ok) (hc : CausallyClosed r.elems) :
    r.Shaped where
  once c e he p := by
    have hnodup : (r.childrenOf p).Nodup := (h.sorted p).imp (fun hab => ne_of_gt hab)
    by_cases hp : p = e.after
    · rw [if_pos hp]
      exact List.count_eq_one_of_mem hnodup ((h.children p c).2 ⟨e, he, hp.symm⟩)
    · rw [if_neg hp]
      apply List.count_eq_zero_of_not_mem
      intro hmem
      obtain ⟨e', he', hafter⟩ := (h.children p c).1 hmem
      rw [he, Option.some.injEq] at he'
      rw [he'] at hp
      exact hp hafter.symm
  present p c hmem := by
    obtain ⟨e, he, -⟩ := (h.children p c).1 hmem
    exact ⟨e, he⟩
  descending := h.sorted
  after c e he := ⟨hc c e he, hangsBelow_lt h hl ⟨e, he, rfl⟩⟩
  counter := h.counter
  visible := by
    obtain ⟨ids, hids, hpairwise, hmem⟩ := visibleIds_spec h hl
    refine ⟨ids, hids, hpairwise.imp ?_, ?_⟩
    · intro a b hab heq
      rw [heq] at hab
      exact DocBefore.asymm hl b b hab hab
    · intro c
      rw [hmem, ← isShown_eq_true]
      constructor
      · exact fun hx => hx.1
      · intro hshown
        obtain ⟨e, he, -⟩ := isShown_eq_true.1 hshown
        exact ⟨hshown, h.exists_path hl hc he⟩

end RGA

/-- Local edits, merges and digests keep the representation invariant of every replica, and no
element is lost. -/
theorem rga_shape_kept {s : RgaSwarm ν α} (h : Run RgaSwarm.step RgaSwarm.init past s) (n : ν) :
    (s.replica n).Shaped :=
  ((RgaSwarm.Ok.of_run h).replica n).shaped (RgaSwarm.Ok.of_run h).log
    ((RgaSwarm.Closed.of_run h).replica n)

theorem rga_shape_kept_concurrent :
    ∃ past, ∃ s : RgaSwarm String Char, Run RgaSwarm.step RgaSwarm.init past s ∧
      (s.replica "a").toList = some ['z', 'x'] ∧ (s.replica "a").Shaped := by
  obtain ⟨past, s, hr, hs⟩ := exists_run_of_exec RgaSwarm.step RgaSwarm.init concurrentInserts
    (fun s => (s.replica "a").toList) (some ['z', 'x']) (by decide)
  exact ⟨past, s, hr, hs, rga_shape_kept hr "a"⟩

end Suprime
