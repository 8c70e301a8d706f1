import Mathlib.Data.List.Sort
import Mathlib.Data.List.Lex
import Mathlib.Data.Finset.Card

namespace Suprime
set_option autoImplicit true

variable {ι : Type u}

/-- Visit each node of a list: the node itself if it is shown, then what lies below it. -/
def gather (visit : ι → Option (List ι)) (shown : ι → Bool) : List ι → Option (List ι)
  | [] => some []
  | c :: cs => do
    let below ← visit c
    let rest ← gather visit shown cs
    some ((if shown c then [c] else []) ++ (below ++ rest))

/-- Depth-first walk below a node, `none` when the recursion is deeper than the fuel. -/
def walk (children : ι → List ι) (shown : ι → Bool) : ℕ → ι → Option (List ι)
  | 0, _ => none
  | fuel + 1, p => gather (walk children shown fuel) shown (children p)

/-- The nodes that lead from `p` down to `x`, where `par c p` says that `c` hangs below `p`. -/
inductive Path (par : ι → ι → Prop) : ι → List ι → ι → Prop
  | nil : Path par p [] p
  | cons : par c p → Path par c l x → Path par p (c :: l) x

theorem Path.mono {par par' : ι → ι → Prop} (hpar : ∀ c p, par c p → par' c p)
    (h : Path par p l x) : Path par' p l x := by
  induction h with
  | nil => exact .nil
  | cons hc _ ih => exact .cons (hpar _ _ hc) ih

theorem Path.snoc_inv {par : ι → ι → Prop} (h : Path par p (l ++ [y]) x) :
    y = x ∧ ∃ q, par x q ∧ Path par p l q := by
  induction l generalizing p with
  | nil =>
    cases h with
    | cons hc hn =>
      cases hn
      exact ⟨rfl, p, hc, .nil⟩
  | cons c l ih =>
    cases h with
    | cons hc hl =>
      obtain ⟨he, q, hq, hp⟩ := ih hl
      exact ⟨he, q, hq, .cons hc hp⟩

theorem Path.le [Preorder ι] {par : ι → ι → Prop} (hlt : ∀ c p, par c p → p < c)
    (h : Path par p l x) : p ≤ x := by
  induction h with
  | nil => exact le_rfl
  | cons hc _ ih => exact (hlt _ _ hc).le.trans ih

theorem Path.lt_of_ne_nil [Preorder ι] {par : ι → ι → Prop} (hlt : ∀ c p, par c p → p < c)
    (h : Path par p l x) (hl : l ≠ []) : p < x := by
  cases h with
  | nil => exact absurd rfl hl
  | cons hc hp => exact (hlt _ _ hc).trans_le (hp.le hlt)

/-- Where every node hangs below one node and the root not below itself, there is one way down to
a node. -/
theorem Path.eq_of_acyclic {par : ι → ι → Prop} (hfun : ∀ c p q, par c p → par c q → p = q)
    (hroot : ∀ l, Path par r l r → l = []) (h : Path par r l x) (h' : Path par r l' x) :
    l = l' := by
  induction l using List.reverseRecOn generalizing x l' with
  | nil =>
    cases h
    exact (hroot _ h').symm
  | append_singleton l y ih =>
    obtain ⟨rfl, q, hq, hp⟩ := h.snoc_inv
    rcases List.eq_nil_or_concat l' with rfl | ⟨m, z, rfl⟩
    · cases h'
      exact absurd (hroot _ h) (by simp)
    · rw [List.concat_eq_append] at h' ⊢
      obtain ⟨rfl, q', hq', hp'⟩ := h'.snoc_inv
      rw [hfun _ _ _ hq' hq] at hp'
      rw [ih hp hp']

theorem Path.unique [Preorder ι] {par : ι → ι → Prop} (hlt : ∀ c p, par c p → p < c)
    (hfun : ∀ c p q, par c p → par c q → p = q) (h : Path par r l x) (h' : Path par r l' x) :
    l = l' := by
  apply Path.eq_of_acyclic hfun ?_ h h'
  intro w hw
  by_contra hne
  exact lt_irrefl r (hw.lt_of_ne_nil hlt hne)

theorem Path.append {par : ι → ι → Prop} (h : Path par p l q) (h' : Path par q m x) :
    Path par p (l ++ m) x := by
  induction h with
  | nil => exact h'
  | cons hc _ ih => exact .cons hc (ih h')

theorem Path.snoc {par : ι → ι → Prop} (h : Path par p l q) (hx : par x q) :
    Path par p (l ++ [x]) x :=
  h.append (.cons hx .nil)

/-- Document order below `r`: ancestors first, then greater siblings first. -/
def Before [LT ι] (par : ι → ι → Prop) (r x y : ι) : Prop :=
  ∃ lx ly, Path par r lx x ∧ Path par r ly y ∧ List.Lex (fun a b => b < a) lx ly

theorem Before.lift [LT ι] {par : ι → ι → Prop} (h : Before par c x y) (hc : par c p) :
    Before par p x y := by
  obtain ⟨lx, ly, hx, hy, hl⟩ := h
  exact ⟨c :: lx, c :: ly, .cons hc hx, .cons hc hy, .cons hl⟩

theorem Path.end_eq {par : ι → ι → Prop} (h : Path par p l x) (h' : Path par p l y) : x = y := by
  induction h with
  | nil =>
    cases h'
    rfl
  | cons _ _ ih =>
    cases h' with
    | cons _ h' => exact ih h'

theorem Path.of_append {par : ι → ι → Prop} (h : Path par p (l ++ m) x) :
    ∃ q, Path par p l q ∧ Path par q m x := by
  induction l generalizing p with
  | nil => exact ⟨p, .nil, h⟩
  | cons c l ih =>
    cases h with
    | cons hc hl =>
      obtain ⟨q, hq, hm⟩ := ih hl
      exact ⟨q, .cons hc hq, hm⟩

theorem lex_snoc {R : ι → ι → Prop} {l m : List ι} (h : List.Lex R l m)
    (hnext : ∀ d rest, m = l ++ d :: rest → R e d) : List.Lex R (l ++ [e]) m := by
  induction h with
  | @nil d rest => exact .rel (hnext d rest rfl)
  | @cons a l m _ ih =>
    apply List.Lex.cons
    apply ih
    intro d rest he
    exact hnext d rest (by rw [he]; rfl)
  | rel hab => exact .rel hab

/-- A new child of `a`, greater than the others, comes right after `a`: behind what is before `a`
and `a` itself. -/
theorem Before.to_child [LT ι] {par par' : ι → ι → Prop} (hpar : ∀ c p, par c p → par' c p)
    (h : Before par r x a) (he : par' e a) : Before par' r x e := by
  obtain ⟨lx, la, hx, ha, hlex⟩ := h
  exact ⟨lx, la ++ [e], hx.mono hpar, (ha.mono hpar).snoc he, hlex.append_right _ [e]⟩

theorem Before.child [LT ι] {par : ι → ι → Prop} (ha : Path par r la a) (he : par e a) :
    Before par r a e := by
  have hlex : List.Lex (fun a b => b < a) (la ++ []) (la ++ [e]) :=
    List.Lex.append_left _ .nil la
  rw [List.append_nil] at hlex
  exact ⟨la, la ++ [e], ha, ha.snoc he, hlex⟩

theorem Before.of_child [LT ι] {par par' : ι → ι → Prop} (hpar : ∀ c p, par c p → par' c p)
    (h : Before par r a y) (he : par' e a) (hbig : ∀ d, par d a → d < e) :
    Before par' r e y := by
  obtain ⟨la, ly, ha, hy, hlex⟩ := h
  refine ⟨la ++ [e], ly, (ha.mono hpar).snoc he, hy.mono hpar, lex_snoc hlex ?_⟩
  intro d rest hl
  rw [hl] at hy
  obtain ⟨q, hq, hrest⟩ := hy.of_append
  rw [← hq.end_eq ha] at hbig
  cases hrest with
  | cons hd _ => exact hbig d hd

theorem Before.asymm [LinearOrder ι] {par : ι → ι → Prop} (hlt : ∀ c p, par c p → p < c)
    (hfun : ∀ c p q, par c p → par c q → p = q) (h : Before par r x y) : ¬ Before par r y x := by
  obtain ⟨lx, ly, hx, hy, hl⟩ := h
  rintro ⟨ly', lx', hy', hx', hl'⟩
  rw [hx'.unique hlt hfun hx, hy'.unique hlt hfun hy] at hl'
  exact Std.Asymm.asymm _ _ hl hl'

theorem lex_convex {R : ι → ι → Prop} (hR : ∀ a b, R a b → ¬ R b a) {l k m m' : List ι}
    (h : List.Lex R (l ++ m) k) (h' : List.Lex R k (l ++ m')) : ∃ n, k = l ++ n := by
  induction l generalizing k with
  | nil => exact ⟨k, rfl⟩
  | cons a l ih =>
    have hirrefl : ∀ b, ¬ R b b := fun b hb => hR b b hb hb
    cases h with
    | cons h =>
      cases h' with
      | cons h' =>
        obtain ⟨n, rfl⟩ := ih h h'
        exact ⟨n, rfl⟩
      | rel hab => exact absurd hab (hirrefl _)
    | rel hab =>
      cases h' with
      | cons _ => exact absurd hab (hirrefl _)
      | rel hba => exact absurd hba (hR _ _ hab)

theorem Before.convex [LinearOrder ι] {par : ι → ι → Prop} (hlt : ∀ c p, par c p → p < c)
    (hfun : ∀ c p q, par c p → par c q → p = q) (ha : Path par r la a)
    (hx : Path par a lx x) (hz : Path par a lz z) (hxy : Before par r x y)
    (hyz : Before par r y z) : ∃ l, Path par a l y := by
  obtain ⟨kx, ky, hkx, hky, hlex⟩ := hxy
  obtain ⟨ky', kz, hky', hkz, hlex'⟩ := hyz
  cases hky'.unique hlt hfun hky
  cases hkx.unique hlt hfun (ha.append hx)
  cases hkz.unique hlt hfun (ha.append hz)
  obtain ⟨l, rfl⟩ := lex_convex (fun b c hbc hcb => lt_asymm hbc hcb) hlex hlex'
  obtain ⟨q, hq, hl⟩ := hky.of_append
  cases hq.end_eq ha
  exact ⟨l, hl⟩

theorem Before.of_path [LT ι] {par : ι → ι → Prop} (ha : Path par r la a) (hx : Path par a l x)
    (hl : l ≠ []) : Before par r a x := by
  obtain ⟨c, l, rfl⟩ := List.exists_cons_of_ne_nil hl
  have hlex : List.Lex (fun a b => b < a) (la ++ []) (la ++ c :: l) :=
    List.Lex.append_left _ .nil la
  rw [List.append_nil] at hlex
  exact ⟨la, la ++ c :: l, ha, ha.append hx, hlex⟩

theorem Path.comparable [Preorder ι] {par : ι → ι → Prop} (hlt : ∀ c p, par c p → p < c)
    (hfun : ∀ c p q, par c p → par c q → p = q) (ha : Path par r la a) (hx : Path par a l x)
    (hb : Path par r lb b) (hx' : Path par b m x) :
    (∃ k, Path par a k b) ∨ ∃ k, Path par b k a := by
  have hsame := (ha.append hx).unique hlt hfun (hb.append hx')
  rcases List.append_eq_append_iff.1 hsame with ⟨k, rfl, _⟩ | ⟨k, rfl, _⟩
  · obtain ⟨q, hq, hk⟩ := hb.of_append
    cases hq.end_eq ha
    exact .inl ⟨k, hk⟩
  · obtain ⟨q, hq, hk⟩ := ha.of_append
    cases hq.end_eq hb
    exact .inr ⟨k, hk⟩

theorem gather_isSome {visit : ι → Option (List ι)} {shown : ι → Bool} {cs : List ι}
    (h : ∀ c ∈ cs, ∃ l, visit c = some l) : ∃ l, gather visit shown cs = some l := by
  induction cs with
  | nil => exact ⟨[], rfl⟩
  | cons c cs ih =>
    obtain ⟨below, hb⟩ := h c List.mem_cons_self
    obtain ⟨rest, hr⟩ := ih (fun d hd => h d (List.mem_cons_of_mem _ hd))
    simp only [gather, hb, hr, Option.bind_eq_bind, Option.bind_some]
    exact ⟨_, rfl⟩

theorem gather_cons {visit : ι → Option (List ι)} {shown : ι → Bool}
    (h : gather visit shown (c :: cs) = some l) :
    ∃ below rest, visit c = some below ∧ gather visit shown cs = some rest ∧
      l = (if shown c then [c] else []) ++ (below ++ rest) := by
  obtain ⟨below, hb, h⟩ := Option.bind_eq_some_iff.1 h
  obtain ⟨rest, hr, h⟩ := Option.bind_eq_some_iff.1 h
  exact ⟨below, rest, hb, hr, (Option.some.inj h).symm⟩

theorem visit_of_mem_gather {visit : ι → Option (List ι)} {shown : ι → Bool}
    (h : gather visit shown cs = some l) (hc : c ∈ cs) : ∃ below, visit c = some below := by
  induction cs generalizing l with
  | nil => cases hc
  | cons d cs ih =>
    obtain ⟨below, rest, hb, hr, _⟩ := gather_cons h
    rcases List.mem_cons.1 hc with rfl | hc
    · exact ⟨below, hb⟩
    · exact ih hr hc

theorem mem_gather {visit : ι → Option (List ι)} {shown : ι → Bool}
    (h : gather visit shown cs = some l) : x ∈ l ↔
      ∃ c ∈ cs, (x = c ∧ shown c = true) ∨ ∃ below, visit c = some below ∧ x ∈ below := by
  induction cs generalizing l with
  | nil =>
    cases h
    simp
  | cons c cs ih =>
    obtain ⟨below, rest, hb, hr, rfl⟩ := gather_cons h
    simp only [List.mem_append, ih hr, List.mem_cons, exists_eq_or_imp, hb, Option.some.injEq,
      exists_eq_left']
    by_cases hc : shown c = true <;> simp [hc, or_assoc]

theorem mem_walk {children : ι → List ι} {shown : ι → Bool} {par : ι → ι → Prop}
    (hpar : ∀ p c, c ∈ children p ↔ par c p) (h : walk children shown fuel p = some l) :
    x ∈ l ↔ shown x = true ∧ ∃ w, w ≠ [] ∧ Path par p w x := by
  induction fuel generalizing p l with
  | zero => cases h
  | succ fuel ih =>
    rw [mem_gather h]
    constructor
    · rintro ⟨c, hc, ⟨rfl, hs⟩ | ⟨below, hb, hx⟩⟩
      · exact ⟨hs, [x], by simp, .cons ((hpar _ _).1 hc) .nil⟩
      · obtain ⟨hs, w, _, hw⟩ := (ih hb).1 hx
        exact ⟨hs, c :: w, by simp, .cons ((hpar _ _).1 hc) hw⟩
    · rintro ⟨hs, w, hne, hw⟩
      cases hw with
      | nil => exact absurd rfl hne
      | @cons c _ w _ hc hw =>
        refine ⟨c, (hpar _ _).2 hc, ?_⟩
        cases hw with
        | nil => exact .inl ⟨rfl, hs⟩
        | cons hd hw =>
          right
          obtain ⟨below, hb⟩ := visit_of_mem_gather h ((hpar _ _).2 hc)
          exact ⟨below, hb, (ih hb).2 ⟨hs, _, by simp, .cons hd hw⟩⟩

theorem pairwise_gather [LinearOrder ι] {visit : ι → Option (List ι)} {shown : ι → Bool}
    {par : ι → ι → Prop} (hcs : cs.Pairwise (fun a b => b < a)) (hp : ∀ c ∈ cs, par c p)
    (hv : ∀ c ∈ cs, ∀ below, visit c = some below →
      below.Pairwise (Before par c) ∧ ∀ x ∈ below, ∃ w, w ≠ [] ∧ Path par c w x)
    (h : gather visit shown cs = some l) :
    l.Pairwise (Before par p) ∧ ∀ x ∈ l, ∃ c ∈ cs, ∃ w, Path par p (c :: w) x := by
  induction cs generalizing l with
  | nil =>
    cases h
    simp
  | cons c cs ih =>
    obtain ⟨below, rest, hb, hr, rfl⟩ := gather_cons h
    obtain ⟨hc, hcs⟩ := List.pairwise_cons.1 hcs
    have hpc := hp c List.mem_cons_self
    obtain ⟨hsort, hpath⟩ := hv c List.mem_cons_self below hb
    obtain ⟨hrest, hmem⟩ := ih hcs (fun d hd => hp d (List.mem_cons_of_mem _ hd))
      (fun d hd => hv d (List.mem_cons_of_mem _ hd)) hr
    have hown : ∀ x ∈ (if shown c then [c] else []), x = c := by
      intro x hx
      by_cases hs : shown c = true <;> simp [hs] at hx
      exact hx
    have hlater : ∀ w x, Path par p (c :: w) x → ∀ y ∈ rest, Before par p x y := by
      intro w x hx y hy
      obtain ⟨d, hd, w', hw'⟩ := hmem y hy
      exact ⟨_, _, hx, hw', .rel (hc d hd)⟩
    refine ⟨?_, ?_⟩
    · simp only [List.pairwise_append]
      refine ⟨?_, ⟨?_, hrest, ?_⟩, ?_⟩
      · by_cases hs : shown c = true <;> simp [hs]
      · exact hsort.imp (fun hxy => hxy.lift hpc)
      · intro x hx y hy
        obtain ⟨w, _, hw⟩ := hpath x hx
        exact hlater w x (.cons hpc hw) y hy
      · intro x hx y hy
        rw [hown x hx]
        rcases List.mem_append.1 hy with hy | hy
        · obtain ⟨w, hne, hw⟩ := hpath y hy
          refine ⟨[c], c :: w, .cons hpc .nil, .cons hpc hw, .cons ?_⟩
          obtain ⟨a, w, rfl⟩ := List.exists_cons_of_ne_nil hne
          exact .nil
        · exact hlater [] c (.cons hpc .nil) y hy
    · intro x hx
      rcases List.mem_append.1 hx with hx | hx
      · rw [hown x hx]
        exact ⟨c, List.mem_cons_self, [], .cons hpc .nil⟩
      · rcases List.mem_append.1 hx with hx | hx
        · obtain ⟨w, _, hw⟩ := hpath x hx
          exact ⟨c, List.mem_cons_self, w, .cons hpc hw⟩
        · obtain ⟨d, hd, hw⟩ := hmem x hx
          exact ⟨d, List.mem_cons_of_mem _ hd, hw⟩

theorem pairwise_walk [LinearOrder ι] {children : ι → List ι} {shown : ι → Bool}
    {par : ι → ι → Prop} (hpar : ∀ p c, c ∈ children p ↔ par c p)
    (hsort : ∀ p, (children p).Pairwise (fun a b => b < a))
    (h : walk children shown fuel p = some l) : l.Pairwise (Before par p) := by
  induction fuel generalizing p l with
  | zero => cases h
  | succ fuel ih =>
    apply (pairwise_gather (hsort p) (fun c hc => (hpar p c).1 hc) ?_ h).1
    intro c _ below hb
    exact ⟨ih hb, fun x hx => ((mem_walk hpar hb).1 hx).2⟩

theorem walk_isSome [LinearOrder ι] (children : ι → List ι) (shown : ι → Bool) (S : Finset ι)
    (hlt : ∀ p, ∀ c ∈ children p, p < c ∧ c ∈ S) (p : ι) (fuel : ℕ)
    (hf : (S.filter (p < ·)).card < fuel) : ∃ l, walk children shown fuel p = some l := by
  induction fuel generalizing p with
  | zero => exact absurd hf (Nat.not_lt_zero _)
  | succ fuel ih =>
    apply gather_isSome
    intro c hc
    obtain ⟨hpc, hcS⟩ := hlt p c hc
    apply ih
    have hss : S.filter (c < ·) ⊂ S.filter (p < ·) := by
      rw [Finset.ssubset_iff_of_subset]
      · exact ⟨c, by simp [hpc, hcS], by simp⟩
      · intro x hx
        rw [Finset.mem_filter] at hx ⊢
        exact ⟨hx.1, hpc.trans hx.2⟩
    have hcard := Finset.card_lt_card hss
    omega

/-- In a list ordered by an asymmetric relation, the relation decides which of two elements
stands first. -/
theorem pair_sublist_iff {R : ι → ι → Prop} (hR : ∀ a b, R a b → ¬ R b a)
    (h : l.Pairwise R) (hx : x ∈ l) (hy : y ∈ l) (hne : x ≠ y) : [x, y].Sublist l ↔ R x y := by
  constructor
  · exact fun hs => h.forall_sublist hs
  · intro hxy
    induction l with
    | nil => cases hx
    | cons a l ih =>
      obtain ⟨ha, hl⟩ := List.pairwise_cons.1 h
      rcases List.mem_cons.1 hx with rfl | hxl
      · rcases List.mem_cons.1 hy with rfl | hyl
        · exact absurd rfl hne
        · exact (List.singleton_sublist.2 hyl).cons_cons x
      · rcases List.mem_cons.1 hy with rfl | hyl
        · exact absurd (ha x hxl) (hR _ _ hxy)
        · exact (ih hl hxl hyl).cons a

theorem pairwise_insertIdx {R : ι → ι → Prop} {l : List ι} (h : l.Pairwise R)
    (hk : k ≤ l.length) (hbefore : ∀ x ∈ l.take k, R x e) (hafter : ∀ y ∈ l.drop k, R e y) :
    (l.insertIdx k e).Pairwise R := by
  induction l generalizing k with
  | nil =>
    cases Nat.le_zero.1 hk
    exact List.pairwise_singleton R e
  | cons a l ih =>
    cases k with
    | zero =>
      rw [List.insertIdx_zero]
      exact List.pairwise_cons.2 ⟨hafter, h⟩
    | succ k =>
      obtain ⟨ha, hl⟩ := List.pairwise_cons.1 h
      have hk := Nat.le_of_succ_le_succ hk
      rw [List.insertIdx_succ_cons]
      apply List.pairwise_cons.2
      constructor
      · intro x hx
        cases (List.mem_insertIdx hk).1 hx with
        | inl hx =>
          rw [hx]
          exact hbefore a List.mem_cons_self
        | inr hx => exact ha x hx
      · exact ih hl hk (fun x hx => hbefore x (List.mem_cons_of_mem _ hx)) hafter

theorem filterMap_insertIdx {f : ι → Option α} {ids : List ι}
    (hf : ∀ i ∈ ids, ∃ v, f i = some v) (he : f e = some v) (hk : k ≤ ids.length) :
    (ids.insertIdx k e).filterMap f = (ids.filterMap f).insertIdx k v := by
  induction ids generalizing k with
  | nil =>
    cases Nat.le_zero.1 hk
    rw [List.insertIdx_zero, List.filterMap_cons_some he, List.filterMap_nil, List.insertIdx_zero]
  | cons i ids ih =>
    cases k with
    | zero =>
      rw [List.insertIdx_zero, List.filterMap_cons_some he, List.insertIdx_zero]
    | succ k =>
      obtain ⟨w, hw⟩ := hf i List.mem_cons_self
      rw [List.insertIdx_succ_cons, List.filterMap_cons_some hw, List.filterMap_cons_some hw,
        List.insertIdx_succ_cons,
        ih (fun j hj => hf j (List.mem_cons_of_mem _ hj)) (Nat.le_of_succ_le_succ hk)]

theorem filterMap_eraseIdx {f : ι → Option α} {ids : List ι}
    (hf : ∀ i ∈ ids, ∃ v, f i = some v) (k : ℕ) :
    (ids.eraseIdx k).filterMap f = (ids.filterMap f).eraseIdx k := by
  induction ids generalizing k with
  | nil => rfl
  | cons i ids ih =>
    obtain ⟨w, hw⟩ := hf i List.mem_cons_self
    rw [List.filterMap_cons_some hw]
    cases k with
    | zero => rfl
    | succ k =>
      rw [List.eraseIdx_cons_succ, List.filterMap_cons_some hw, List.eraseIdx_cons_succ,
        ih (fun j hj => hf j (List.mem_cons_of_mem _ hj))]

theorem length_filterMap_of_some {f : ι → Option α} {ids : List ι}
    (hf : ∀ i ∈ ids, ∃ v, f i = some v) : (ids.filterMap f).length = ids.length := by
  induction ids with
  | nil => rfl
  | cons i ids ih =>
    obtain ⟨w, hw⟩ := hf i List.mem_cons_self
    rw [List.filterMap_cons_some hw, List.length_cons, List.length_cons,
      ih (fun j hj => hf j (List.mem_cons_of_mem _ hj))]

/-- Two lists ordered by one asymmetric relation are equal when they have the same elements. -/
theorem eq_of_pairwise_of_mem_iff {R : ι → ι → Prop} {l l' : List ι}
    (hR : ∀ a b, R a b → ¬ R b a) (h : l.Pairwise R) (h' : l'.Pairwise R)
    (hm : ∀ x, x ∈ l ↔ x ∈ l') : l = l' := by
  have hirr : ∀ a b, R a b → a ≠ b := by
    rintro a b hab rfl
    exact hR a a hab hab
  have hperm : l.Perm l' :=
    (List.perm_ext_iff_of_nodup (h.imp (hirr _ _)) (h'.imp (hirr _ _))).2 hm
  apply hperm.eq_of_pairwise ?_ h h'
  intro a b _ _ hab hba
  exact absurd hba (hR a b hab)

end Suprime
