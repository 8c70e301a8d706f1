import Suprime.RgaEdits

namespace Suprime
set_option autoImplicit true

variable {ν α : Type} [LinearOrder ν] [Inhabited ν]

/-- An element was inserted behind another. -/
def InsertLog.Hangs (log : InsertLog ν α) (c p : ElemId ν) : Prop := ∃ v, (c, v, p) ∈ log

/-- An element hangs below another one of the document, directly or below others that do. -/
def Descends (log : InsertLog ν α) (a x : ElemId ν) : Prop :=
  ∃ la l, Path log.Hangs .ROOT la a ∧ Path log.Hangs a l x

namespace InsertLog.Ok

variable {log : InsertLog ν α}

section
omit [Inhabited ν]

theorem hangs_lt (h : log.Ok) : ∀ c p, log.Hangs c p → p < c := by
  rintro c p ⟨v, hv⟩
  exact h.after_lt _ hv

theorem hangs_unique (h : log.Ok) : ∀ c p q, log.Hangs c p → log.Hangs c q → p = q := by
  rintro c p q ⟨v, hv⟩ ⟨w, hw⟩
  cases h.eq_of_id hv hw rfl
  rfl

end

end InsertLog.Ok

namespace Descends

variable {log log' : InsertLog ν α}

section
omit [LinearOrder ν]

theorem mono (h : Descends log a x) (hlog : ∀ p ∈ log, p ∈ log') : Descends log' a x := by
  obtain ⟨la, l, ha, hx⟩ := h
  have hhangs : ∀ c p, log.Hangs c p → log'.Hangs c p := by
    rintro c p ⟨v, hv⟩
    exact ⟨v, hlog _ hv⟩
  exact ⟨la, l, ha.mono hhangs, hx.mono hhangs⟩

theorem trans (h : Descends log a x) (h' : Descends log x y) : Descends log a y := by
  obtain ⟨la, l, ha, hx⟩ := h
  obtain ⟨_, m, _, hy⟩ := h'
  exact ⟨la, l ++ m, ha, hx.append hy⟩

theorem snoc (h : Descends log a x) (hc : log.Hangs c x) : Descends log a c := by
  obtain ⟨la, l, ha, hx⟩ := h
  exact ⟨la, l ++ [c], ha, hx.snoc hc⟩

end

theorem convex (hl : log.Ok) (hx : Descends log a x) (hz : Descends log a z)
    (hxy : RGA.DocBefore log x y) (hyz : RGA.DocBefore log y z) : Descends log a y := by
  obtain ⟨la, lx, ha, hx⟩ := hx
  obtain ⟨_, lz, _, hz⟩ := hz
  obtain ⟨ly, hy⟩ := Before.convex hl.hangs_lt hl.hangs_unique ha hx hz hxy hyz
  exact ⟨la, ly, ha, hy⟩

theorem le (hl : log.Ok) (h : Descends log a x) : a ≤ x := by
  obtain ⟨_, _, _, hx⟩ := h
  exact hx.le hl.hangs_lt

theorem docBefore (h : Descends log a x) (hne : a ≠ x) : RGA.DocBefore log a x := by
  obtain ⟨la, l, ha, hx⟩ := h
  apply Before.of_path ha hx
  rintro rfl
  cases hx
  exact hne rfl

theorem comparable (hl : log.Ok) (ha : Descends log a x) (hb : Descends log b x) :
    Descends log a b ∨ Descends log b a := by
  obtain ⟨la, l, ha, hx⟩ := ha
  obtain ⟨lb, m, hb, hx'⟩ := hb
  rcases Path.comparable hl.hangs_lt hl.hangs_unique ha hx hb hx' with ⟨k, hk⟩ | ⟨k, hk⟩
  · exact .inl ⟨la, k, ha, hk⟩
  · exact .inr ⟨lb, k, hb, hk⟩

theorem present {r : RGA ν α} (hl : log.Ok) (hr : r.Ok log) (hc : CausallyClosed r.elems)
    (h : Descends log a x) (hx : ∃ e, r.elems.get x = some e) :
    a = .ROOT ∨ ∃ e, r.elems.get a = some e := by
  obtain ⟨la, l, ha, hpath⟩ := h
  induction l using List.reverseRecOn generalizing x with
  | nil =>
    cases hpath
    exact .inr hx
  | append_singleton l y ih =>
    obtain ⟨rfl, q, hq, hpath⟩ := hpath.snoc_inv
    obtain ⟨e, he⟩ := hx
    cases hl.hangs_unique _ _ _ hq ⟨e.value, (hr.logged _ e he).2⟩
    rcases hc _ e he with hroot | hpresent
    · rw [hroot] at hpath
      exact .inl (le_antisymm (hpath.le hl.hangs_lt) (ha.le hl.hangs_lt))
    · exact ih hpresent hpath

end Descends

namespace RgaSwarm

/-- Node `n` types a word from state `s` on: it inserts letters at one position after another, and
in between other nodes do what they like. `k` is its next position. -/
inductive Typing (n : ν) (s : RgaSwarm ν α) :
    ℕ → List (RgaSwarm ν α × RgaAction ν α) → List (ElemId ν) → RgaSwarm ν α → Prop
  | start : Typing n s k [] [] s
  | letter : Typing n s k past w t → t.step (.insert n k v) = some u →
      (t.replica n).insert k v = some (eid, r) →
      Typing n s (k + 1) ((t, .insert n k v) :: past) (w ++ [eid]) u
  | other : Typing n s k past w t → t.step a = some u → u.replica n = t.replica n →
      Typing n s k ((t, a) :: past) w u

theorem Typing.run {s t : RgaSwarm ν α} (h : Typing n s k past w t) :
    Run RgaSwarm.step s past t := by
  induction h with
  | start => exact .start
  | letter _ hs _ ih => exact ih.next hs
  | other _ hs _ ih => exact ih.next hs

/-- What is known of a word while it is typed: the letters hang one below the other, the first one
below an element that its node had, and the last one was typed right before the next position. -/
structure Spelt (n : ν) (s : RgaSwarm ν α) (k : ℕ) (w : List (ElemId ν)) (t : RgaSwarm ν α)
    (a : ElemId ν) : Prop where
  head : w.head? = some a
  first : ∃ p, t.log.Hangs a p ∧ (p = .ROOT ∨ ∃ e, (s.replica n).elems.get p = some e)
  node : a.node = n
  root_lt : .ROOT < a
  below : ∀ x ∈ w, Descends t.log a x
  order : w.Pairwise (fun x y => Descends t.log x y ∧ x < y)
  last : ∃ ids j x, (t.replica n).visibleIds = some ids ∧ k = j + 1 ∧ ids[j]? = some x ∧
    ∀ y ∈ w, Descends t.log y x

theorem Spelt.mono {s t u : RgaSwarm ν α} (h : Spelt n s k w t a)
    (hlog : ∀ p ∈ t.log, p ∈ u.log) (hreplica : u.replica n = t.replica n) :
    Spelt n s k w u a where
  head := h.head
  first := by
    obtain ⟨p, ⟨v, hv⟩, hp⟩ := h.first
    exact ⟨p, ⟨v, hlog _ hv⟩, hp⟩
  node := h.node
  root_lt := h.root_lt
  below x hx := (h.below x hx).mono hlog
  order := h.order.imp (fun hd => ⟨hd.1.mono hlog, hd.2⟩)
  last := by
    obtain ⟨ids, j, x, hids, hk, hx, hlast⟩ := h.last
    exact ⟨ids, j, x, by rw [hreplica, hids], hk, hx, fun y hy => (hlast y hy).mono hlog⟩

theorem Ok.descends {s : RgaSwarm ν α} (h : s.Ok) (hids : (s.replica n).visibleIds = some ids)
    (hx : x ∈ ids) : Descends s.log x x := by
  obtain ⟨ids', hids', -, hmem⟩ := RGA.visibleIds_before (h.replica n) h.log
  cases hids.symm.trans hids'
  obtain ⟨-, w, -, hw⟩ := (hmem x).1 hx
  have hhangs : ∀ c p, (s.replica n).HangsBelow c p → s.log.Hangs c p := by
    rintro c p ⟨e, he, rfl⟩
    exact ⟨e.value, ((h.replica n).logged c e he).2⟩
  exact ⟨w, [], hw.mono hhangs, .nil⟩

/-- A letter that a node types hangs below the visible one in front of its position, and is then
the one in front of the next position. -/
theorem letter_spec {s t : RgaSwarm ν α} (h : Run RgaSwarm.step RgaSwarm.init past s)
    (hs : s.step (.insert n (k : ℕ) v) = some t)
    (hins : (s.replica n).insert k v = some (eid, r)) :
    ∃ ids a, (s.replica n).visibleIds = some ids ∧ RGA.predecessor ids k = some a ∧
      t.log.Hangs eid a ∧ eid.node = n ∧ .ROOT < eid ∧ Descends t.log eid eid ∧
      ∃ ids', (t.replica n).visibleIds = some ids' ∧ ids'[k]? = some eid := by
  have hok := RgaSwarm.Ok.of_run h
  have hok' := RgaSwarm.Ok.of_run (h.next hs)
  obtain ⟨ids, hids, -, -⟩ := RGA.visibleIds_before (hok.replica n) hok.log
  have ht : t = s.inserted n eid r := by
    simp only [RgaSwarm.step, hins, Option.bind_eq_bind, Option.bind_some, Option.some.injEq] at hs
    exact hs.symm
  have hreplica : t.replica n = r := by
    rw [ht]
    exact Function.update_self _ _ _
  have hk : k ≤ ids.length := by
    simp only [RGA.insert, hids, Option.bind_eq_bind, Option.bind_some] at hins
    obtain ⟨p, hp, -⟩ := Option.bind_eq_some_iff.1 hins
    unfold RGA.predecessor at hp
    split at hp
    · have hlt := (List.getElem?_eq_some_iff.1 hp).1
      omega
    · omega
  have hinserted := (hok.replica n).visibleIds_insert hok.log
    ((RgaSwarm.Closed.of_run h).replica n) (hreplica ▸ hok'.replica n) hok'.log
    (hreplica ▸ (RgaSwarm.Closed.of_run (h.next hs)).replica n) hids hk hins
  obtain ⟨heid, ⟨a, ha, hget⟩, hids'⟩ := hinserted
  have hat : (ids.insertIdx k eid)[k]? = some eid := by
    rw [List.getElem?_insertIdx_self, if_pos hk]
  rw [← hreplica] at hids'
  refine ⟨ids, a, hids, ha, ?_, ?_, ?_, ?_, _, hids', hat⟩
  · have hlog : t.log = s.log ++ [(eid, v, a)] := by
      rw [ht]
      simp [RgaSwarm.inserted, hget]
    exact ⟨v, by simp [hlog]⟩
  · rw [heid]
    exact hok.nodeId n
  · rw [heid]
    exact ElemId.lt_of_counter_lt (Int.lt_add_one_of_le (hok.replica n).nonneg)
  · exact hok'.descends hids' (List.mem_of_getElem? hat)

theorem Typing.spelt {s t : RgaSwarm ν α} (h₀ : Run RgaSwarm.step RgaSwarm.init past₀ s)
    (h : Typing n s k past w t) : w = [] ∧ t.replica n = s.replica n ∨ ∃ a, Spelt n s k w t a := by
  induction h with
  | start => exact .inl ⟨rfl, rfl⟩
  | @letter k past w t v u eid r htyping hs hins ih =>
    obtain ⟨ids, p, hids, hp, hhangs, hnode, hroot, heid, ids', hids', hat⟩ :=
      letter_spec (h₀.append htyping.run) hs hins
    have hlog : ∀ q ∈ t.log, q ∈ u.log := log_step hs
    rcases ih with ⟨rfl, hreplica⟩ | ⟨a, hspelt⟩
    · refine .inr ⟨eid, rfl, ⟨p, hhangs, ?_⟩, hnode, hroot, ?_, List.pairwise_singleton _ _, ids',
        k, eid, hids', rfl, hat, ?_⟩
      · unfold RGA.predecessor at hp
        split at hp
        · have hmem := present_of_mem_visibleIds (Ok.of_run (h₀.append htyping.run)) hids
            (List.mem_of_getElem? hp)
          rw [hreplica] at hmem
          exact .inr hmem
        · exact .inl (Option.some.inj hp).symm
      · intro x hx
        rw [List.mem_singleton.1 hx]
        exact heid
      · intro x hx
        rw [List.mem_singleton.1 hx]
        exact heid
    · obtain ⟨ids₀, j, x, hids₀, rfl, hx, hlast⟩ := hspelt.last
      cases hids.symm.trans hids₀
      have hpx : p = x := by
        have hpos : ((j + 1 : ℕ) : ℤ) > 0 := by omega
        have hindex : (((j + 1 : ℕ) : ℤ) - 1).toNat = j := by omega
        rw [RGA.predecessor, if_pos hpos, hindex] at hp
        exact Option.some.inj (hp.symm.trans hx)
      subst hpx
      have hl := (Ok.of_run ((h₀.append htyping.run).next hs)).log
      have hnext : ∀ y ∈ w, Descends u.log y eid :=
        fun y hy => ((hlast y hy).mono hlog).snoc hhangs
      obtain ⟨q, ⟨v', hv'⟩, hq⟩ := hspelt.first
      refine .inr ⟨a, ?_, ⟨q, ⟨v', hlog _ hv'⟩, hq⟩, hspelt.node, hspelt.root_lt, ?_, ?_, ids',
        j + 1, eid, hids', rfl, hat, ?_⟩
      · rw [List.head?_append, hspelt.head]
        rfl
      · intro y hy
        rcases List.mem_append.1 hy with hy | hy
        · exact (hspelt.below y hy).mono hlog
        · rw [List.mem_singleton.1 hy]
          exact hnext a (List.mem_of_mem_head? hspelt.head)
      · apply List.pairwise_append.2 ⟨?_, List.pairwise_singleton _ _, ?_⟩
        · exact hspelt.order.imp (fun hd => ⟨hd.1.mono hlog, hd.2⟩)
        · intro y hy z hz
          rw [List.mem_singleton.1 hz]
          have hle := ((hlast y hy).mono hlog).le hl
          exact ⟨hnext y hy, hle.trans_lt (hl.hangs_lt _ _ hhangs)⟩
      · intro y hy
        rcases List.mem_append.1 hy with hy | hy
        · exact hnext y hy
        · rw [List.mem_singleton.1 hy]
          exact heid
  | other htyping hs hreplica ih =>
    rcases ih with ⟨rfl, hold⟩ | ⟨a, hspelt⟩
    · exact .inl ⟨rfl, hreplica.trans hold⟩
    · exact .inr ⟨a, hspelt.mono (log_step hs) hreplica⟩

/-- In a run to `s`, node `n` typed a word from state `s₀` on. -/
def Typed (past : List (RgaSwarm ν α × RgaAction ν α)) (s : RgaSwarm ν α) (n : ν)
    (s₀ : RgaSwarm ν α) (w : List (ElemId ν)) : Prop :=
  ∃ pre mid post k t, past = post ++ (mid ++ pre) ∧ Run RgaSwarm.step RgaSwarm.init pre s₀ ∧
    Typing n s₀ k mid w t ∧ Run RgaSwarm.step t post s

/-- What remains of a word that was typed. -/
structure Written (log : InsertLog ν α) (n : ν) (s₀ : RgaSwarm ν α) (w : List (ElemId ν))
    (a : ElemId ν) : Prop where
  head : w.head? = some a
  first : ∃ p, log.Hangs a p ∧ (p = .ROOT ∨ ∃ e, (s₀.replica n).elems.get p = some e)
  node : a.node = n
  root_lt : .ROOT < a
  below : ∀ x ∈ w, Descends log a x
  order : w.Pairwise (fun x y => Descends log x y ∧ x < y)
  replica : (s₀.replica n).Ok log
  closed : CausallyClosed (s₀.replica n).elems

theorem Typed.written {s s₀ : RgaSwarm ν α} (h : Typed past s n s₀ w) (hx : x ∈ w) :
    ∃ a, Written s.log n s₀ w a := by
  obtain ⟨pre, mid, post, k, t, -, h₀, htyping, hpost⟩ := h
  have hlog := log_run hpost
  rcases htyping.spelt h₀ with ⟨rfl, -⟩ | ⟨a, hspelt⟩
  · cases hx
  · obtain ⟨p, ⟨v, hv⟩, hp⟩ := hspelt.first
    refine ⟨a, hspelt.head, ⟨p, ⟨v, hlog _ hv⟩, hp⟩, hspelt.node, hspelt.root_lt,
      fun y hy => (hspelt.below y hy).mono hlog,
      hspelt.order.imp (fun hd => ⟨hd.1.mono hlog, hd.2⟩), ?_,
      (Closed.of_run h₀).replica n⟩
    exact ((Ok.of_run h₀).replica n).mono (fun q hq => hlog q (log_run htyping.run q hq))

/-- A word does not hang below an element that its node did not have when it began to type. -/
theorem Written.not_descends {s₀ : RgaSwarm ν α} {log : InsertLog ν α} (h : Written log n s₀ w a)
    (hl : log.Ok) (hb : .ROOT < b) (hne : a ≠ b) (hnew : (s₀.replica n).elems.get b = none) :
    ¬ Descends log b a := by
  rintro ⟨lb, l, hroot, hpath⟩
  have hpresent : ∀ p, Descends log b p → (p = .ROOT ∨ ∃ e, (s₀.replica n).elems.get p = some e) →
      False := by
    rintro p ⟨lb, m, hlb, hm⟩ (rfl | hp)
    · exact absurd (hm.le hl.hangs_lt) (not_le.2 hb)
    · rcases Descends.present hl h.replica h.closed ⟨lb, m, hlb, hm⟩ hp with hbroot | ⟨e, he⟩
      · exact hb.ne' hbroot
      · cases hnew.symm.trans he
  rcases List.eq_nil_or_concat l with rfl | ⟨l, y, rfl⟩
  · cases hpath
    exact hne rfl
  · rw [List.concat_eq_append] at hpath
    obtain ⟨rfl, q, hq, hpath⟩ := hpath.snoc_inv
    obtain ⟨p, hp, hp'⟩ := h.first
    cases hl.hangs_unique _ _ _ hq hp
    exact hpresent _ ⟨lb, l, hroot, hpath⟩ hp'

/-- Wherever a word is visible, at any node and any time, its letters stand in the order in which
they were typed, and whatever stands between them was typed into it. So two words that two nodes
typed without having the first letter of the other are never mixed. -/
theorem words_stay_together {s t : RgaSwarm ν α} (h : Run RgaSwarm.step RgaSwarm.init past s)
    (ht : Visited past s t) (m : ν) : ∃ l, (t.replica m).visibleIds = some l ∧
      ∀ n s₀ w, Typed past s n s₀ w →
        (∀ x y, [x, y].Sublist l → x ∈ w → y ∈ w → [x, y].Sublist w) ∧
        (∀ x y z, [x, y, z].Sublist l → x ∈ w → z ∈ w →
          ∃ a, w.head? = some a ∧ Descends s.log a y) ∧
        ∀ n' s₀' w', Typed past s n' s₀' w' → n ≠ n' →
          (∀ a, w'.head? = some a → (s₀.replica n).elems.get a = none) →
          (∀ a, w.head? = some a → (s₀'.replica n').elems.get a = none) →
          ∀ x y z, [x, y, z].Sublist l → x ∈ w → y ∈ w' → z ∉ w := by
  have hl := (Ok.of_run h).log
  obtain ⟨l, hids, hsort, -⟩ := RGA.visibleIds_spec (ok_of_visited h ht m).1 hl
  have hpair : ∀ {x y}, [x, y].Sublist l → RGA.DocBefore s.log x y := by
    intro x y hxy
    exact (List.pairwise_cons.1 (hsort.sublist hxy)).1 y List.mem_cons_self
  have htriple : ∀ {x y z}, [x, y, z].Sublist l →
      RGA.DocBefore s.log x y ∧ RGA.DocBefore s.log y z := by
    intro x y z hxyz
    obtain ⟨hx, hrest⟩ := List.pairwise_cons.1 (hsort.sublist hxyz)
    exact ⟨hx y List.mem_cons_self, (List.pairwise_cons.1 hrest).1 z List.mem_cons_self⟩
  refine ⟨l, hids, fun n s₀ w hw => ⟨?_, ?_, ?_⟩⟩
  · intro x y hxy hx hy
    obtain ⟨a, hwritten⟩ := hw.written hx
    have hbefore := hpair hxy
    have hasymm := RGA.DocBefore.asymm hl
    have hne : x ≠ y := by
      rintro rfl
      exact hasymm x x hbefore hbefore
    have horder : w.Pairwise (RGA.DocBefore s.log) :=
      hwritten.order.imp (fun hd => hd.1.docBefore hd.2.ne)
    exact (pair_sublist_iff hasymm horder hx hy hne).2 hbefore
  · intro x y z hxyz hx hz
    obtain ⟨a, hwritten⟩ := hw.written hx
    obtain ⟨hxy, hyz⟩ := htriple hxyz
    exact ⟨a, hwritten.head, (hwritten.below x hx).convex hl (hwritten.below z hz) hxy hyz⟩
  · intro n' s₀' w' hw' hne hnew hnew' x y z hxyz hx hy hz
    obtain ⟨a, ha⟩ := hw.written hx
    obtain ⟨b, hb⟩ := hw'.written hy
    obtain ⟨hxy, hyz⟩ := htriple hxyz
    have hab : a ≠ b := by
      rintro rfl
      exact hne (ha.node.symm.trans hb.node)
    have hay := (ha.below x hx).convex hl (ha.below z hz) hxy hyz
    rcases hay.comparable hl (hb.below y hy) with hd | hd
    · exact hb.not_descends hl ha.root_lt hab.symm (hnew' a ha.head) hd
    · exact ha.not_descends hl hb.root_lt hab (hnew b hb.head) hd

/-- Two nodes type a word each, letter by letter in turns, and one hears of the other's. -/
theorem words_stay_together_of_greetings : ∃ past, ∃ s : RgaSwarm String Char,
    Run RgaSwarm.step RgaSwarm.init past s ∧
      (s.replica "b").toList = some ['y', 'o', 'h', 'i'] ∧
      ∃ l, (s.replica "b").visibleIds = some l ∧ ∀ x y z, [x, y, z].Sublist l →
        x ∈ [⟨1, "a"⟩, ⟨2, "a"⟩] → y ∈ [⟨1, "b"⟩, ⟨2, "b"⟩] → z ∉ [⟨1, "a"⟩, ⟨2, "a"⟩] := by
  have hhi : Typing "a" (init : RgaSwarm String Char) 2 _ [⟨1, "a"⟩, ⟨2, "a"⟩] _ :=
    Typing.other (a := .insert "b" 1 'o') (Typing.letter (w := [⟨1, "a"⟩]) (v := 'i')
      (Typing.other (a := .insert "b" 0 'y') (Typing.letter (w := []) (v := 'h')
        (Typing.start (k := 0)) rfl rfl) rfl rfl) rfl rfl) rfl rfl
  have hyo : Typing "b" (init : RgaSwarm String Char) 2 _ [⟨1, "b"⟩, ⟨2, "b"⟩] _ :=
    Typing.letter (w := [⟨1, "b"⟩]) (v := 'o') (Typing.other (a := .insert "a" 1 'i')
      (Typing.letter (w := []) (v := 'y') (Typing.other (a := .insert "a" 0 'h')
        (Typing.start (k := 0)) rfl rfl) rfl rfl) rfl rfl) rfl rfl
  have hrun := (hhi.run.next (a := RgaAction.share "a") rfl).next (a := RgaAction.merge "b" 0) rfl
  obtain ⟨l, hids, hwords⟩ := words_stay_together hrun (.inl rfl) "b"
  refine ⟨_, _, hrun, by decide +kernel, l, hids, ?_⟩
  obtain ⟨-, -, hmix⟩ := hwords "a" init [⟨1, "a"⟩, ⟨2, "a"⟩] ⟨[], _, [_, _], 2, _, rfl, .start,
    hhi, (Run.start.next (a := RgaAction.share "a") rfl).next (a := RgaAction.merge "b" 0) rfl⟩
  apply hmix "b" init [⟨1, "b"⟩, ⟨2, "b"⟩] ⟨[], _, [_, _], 2, _, rfl, .start, hyo,
    (Run.start.next (a := RgaAction.share "a") rfl).next (a := RgaAction.merge "b" 0) rfl⟩
  · decide
  · intro a ha
    rfl
  · intro a ha
    rfl

end RgaSwarm

end Suprime
