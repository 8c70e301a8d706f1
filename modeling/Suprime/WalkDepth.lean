import Suprime.TreeWalk

namespace Suprime
set_option autoImplicit true

variable {ι : Type u}

theorem gather_isSome_iff {visit : ι → Option (List ι)} {shown : ι → Bool} {cs : List ι} :
    (∃ l, gather visit shown cs = some l) ↔ ∀ c ∈ cs, ∃ l, visit c = some l := by
  constructor
  · intro h c hc
    obtain ⟨l, hl⟩ := h
    exact visit_of_mem_gather hl hc
  · exact gather_isSome

theorem gather_mono {visit visit' : ι → Option (List ι)} {shown : ι → Bool}
    (hvisit : ∀ c l, visit c = some l → visit' c = some l)
    (h : gather visit shown cs = some l) : gather visit' shown cs = some l := by
  induction cs generalizing l with
  | nil => exact h
  | cons c cs ih =>
    obtain ⟨below, rest, hb, hr, rfl⟩ := gather_cons h
    simp only [gather, hvisit c below hb, ih hr, Option.bind_eq_bind, Option.bind_some]

theorem walk_mono {children : ι → List ι} {shown : ι → Bool}
    (h : walk children shown fuel p = some l) (hle : fuel ≤ fuel') :
    walk children shown fuel' p = some l := by
  induction fuel generalizing fuel' p l with
  | zero => cases h
  | succ fuel ih =>
    obtain ⟨fuel', rfl⟩ := Nat.exists_eq_succ_of_ne_zero (Nat.ne_zero_of_lt hle)
    exact gather_mono (fun c l hc => ih hc (Nat.le_of_succ_le_succ hle)) h

variable {children : ι → List ι} {shown : ι → Bool} {par : ι → ι → Prop}

theorem walk_isSome_iff (hpar : ∀ p c, c ∈ children p ↔ par c p) :
    (∃ l, walk children shown fuel p = some l) ↔ ∀ w x, Path par p w x → w.length < fuel := by
  induction fuel generalizing p with
  | zero =>
    apply iff_of_false
    · rintro ⟨l, h⟩
      cases h
    · intro h
      exact absurd (h [] p .nil) (Nat.not_lt_zero _)
  | succ fuel ih =>
    rw [walk, gather_isSome_iff]
    constructor
    · intro h w x hw
      cases hw with
      | nil => exact Nat.succ_pos _
      | cons hc hw => exact Nat.succ_lt_succ (ih.1 (h _ ((hpar _ _).2 hc)) _ _ hw)
    · intro h c hc
      apply ih.2
      intro w x hw
      exact Nat.lt_of_succ_lt_succ (h (c :: w) x (.cons ((hpar _ _).1 hc) hw))

theorem Path.repeated (h : Path par p l p) (k : ℕ) :
    Path par p (List.replicate k l).flatten p := by
  induction k with
  | zero => exact .nil
  | succ k ih =>
    rw [List.replicate_succ, List.flatten_cons]
    exact h.append ih

theorem length_repeated (l : List ι) (k : ℕ) :
    (List.replicate k l).flatten.length = k * l.length := by
  induction k with
  | zero => rw [List.replicate_zero, List.flatten_nil, List.length_nil, Nat.zero_mul]
  | succ k ih =>
    rw [List.replicate_succ, List.flatten_cons, List.length_append, ih, Nat.succ_mul, Nat.add_comm]

theorem Path.hangs (h : Path par p l x) : ∀ c ∈ l, ∃ q, par c q := by
  induction h with
  | nil =>
    intro c hc
    cases hc
  | cons hd _ ih =>
    intro c hc
    cases List.mem_cons.1 hc with
    | inl hc =>
      rw [hc]
      exact ⟨_, hd⟩
    | inr hc => exact ih c hc

theorem Path.nodup (hfun : ∀ c p q, par c p → par c q → p = q)
    (hroot : ∀ l, Path par r l r → l = []) (h : Path par r l x) : l.Nodup := by
  induction l using List.reverseRecOn generalizing x with
  | nil => exact List.nodup_nil
  | append_singleton l y ih =>
    obtain ⟨rfl, q, hq, hp⟩ := h.snoc_inv
    apply List.Nodup.append (ih hp) (List.nodup_singleton y)
    intro z hz hzy
    rw [List.mem_singleton.1 hzy] at hz
    obtain ⟨l₁, l₂, rfl⟩ := List.append_of_mem hz
    obtain ⟨q', hq', hrest⟩ := hp.of_append
    cases hrest with
    | cons hy _ =>
      have hsame := Path.eq_of_acyclic hfun hroot (hq'.snoc hy) h
      have hlen := congrArg List.length hsame
      simp only [List.length_append, List.length_cons, List.length_nil] at hlen
      omega

/-- Where every node hangs below one node and finitely many hang at all, a walk ends, then within
as many nested calls as there are nodes and one, exactly when its start does not hang below
itself. -/
theorem walk_ends_iff (hpar : ∀ p c, c ∈ children p ↔ par c p)
    (hfun : ∀ c p q, par c p → par c q → p = q) (S : Finset ι) (hS : ∀ c p, par c p → c ∈ S) :
    ((∃ fuel l, walk children shown fuel r = some l) ↔ ∀ l, Path par r l r → l = []) ∧
      ((∀ l, Path par r l r → l = []) → ∃ l, walk children shown (S.card + 1) r = some l) := by
  classical
  have hends : (∀ l, Path par r l r → l = []) →
      ∃ l, walk children shown (S.card + 1) r = some l := by
    intro hroot
    rw [walk_isSome_iff hpar]
    intro w x hw
    have hsub : w.toFinset ⊆ S := by
      intro c hc
      obtain ⟨q, hq⟩ := hw.hangs c (List.mem_toFinset.1 hc)
      exact hS c q hq
    have hcard := Finset.card_le_card hsub
    rw [List.toFinset_card_of_nodup (hw.nodup hfun hroot)] at hcard
    exact Nat.lt_succ_of_le hcard
  refine ⟨⟨?_, fun hroot => ⟨S.card + 1, hends hroot⟩⟩, hends⟩
  rintro ⟨fuel, hwalk⟩ l hl
  rw [walk_isSome_iff hpar] at hwalk
  have hlt := hwalk _ _ (hl.repeated fuel)
  rw [length_repeated] at hlt
  by_contra hne
  have hpos := List.length_pos_of_ne_nil hne
  exact absurd (Nat.le_mul_of_pos_right fuel hpos) (Nat.not_le_of_lt hlt)

end Suprime
