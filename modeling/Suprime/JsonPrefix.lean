import Suprime.JsonRoundTrip

namespace Suprime
set_option autoImplicit true

theorem skipWs_append {p u : Text} (h : skipWs p = c :: u) (q : Text) :
    skipWs (p ++ q) = c :: (u ++ q) := by
  have hne : p.dropWhile isJsonSpace ≠ [] := by
    intro hnil
    rw [skipWs, hnil] at h
    cases h
  rw [skipWs, (takeWhile_append_of_ne_nil hne q).2]
  rw [skipWs] at h
  rw [h]
  rfl

theorem prepend_eq_some {us : List CodePoint} (h : prepend us o = some (vs, r)) :
    ∃ ws, o = some (ws, r) ∧ vs = us ++ ws := by
  obtain ⟨⟨ws, r'⟩, ho, hx⟩ := Option.map_eq_some_iff.1 h
  cases hx
  exact ⟨ws, ho, rfl⟩

mutual

theorem scanUnits_append : (p : Text) → (us : PyStr) → (r q : Text) → scanUnits p = some (us, r) →
    scanUnits (p ++ q) = some (us, r ++ q)
  | [], us, r, q, h => by
    rw [scanUnits] at h
    cases h
  | c :: t, us, r, q, h => by
    rw [scanUnits] at h
    rw [List.cons_append, scanUnits]
    by_cases hq : c = '"'
    · rw [if_pos hq] at h ⊢
      cases h
      rfl
    · rw [if_neg hq] at h ⊢
      by_cases hb : c = '\\'
      · rw [if_pos hb] at h ⊢
        exact scanEscape_append t us r q h
      · rw [if_neg hb] at h ⊢
        by_cases hlow : c.toNat < 32
        · rw [if_pos hlow] at h
          cases h
        · rw [if_neg hlow] at h ⊢
          obtain ⟨ws, hws, rfl⟩ := prepend_eq_some h
          rw [scanUnits_append t ws r q hws]
          rfl

theorem scanEscape_append : (p : Text) → (us : PyStr) → (r q : Text) →
    scanEscape p = some (us, r) → scanEscape (p ++ q) = some (us, r ++ q)
  | [], us, r, q, h => by
    rw [scanEscape] at h
    cases h
  | e :: t, us, r, q, h => by
    rw [scanEscape] at h
    rw [List.cons_append, scanEscape]
    by_cases hu : e = 'u'
    · rw [if_pos hu] at h ⊢
      exact scanHex_append t us r q h
    · rw [if_neg hu] at h ⊢
      obtain ⟨u, hun, h⟩ := Option.bind_eq_some_iff.1 h
      obtain ⟨ws, hws, rfl⟩ := prepend_eq_some h
      rw [hun, scanUnits_append t ws r q hws]
      rfl

theorem scanHex_append : (p : Text) → (us : PyStr) → (r q : Text) → scanHex p = some (us, r) →
    scanHex (p ++ q) = some (us, r ++ q)
  | [], us, r, q, h => by
    rw [scanHex] at h
    · cases h
    · simp
  | [_], us, r, q, h => by
    rw [scanHex] at h
    · cases h
    · simp
  | [_, _], us, r, q, h => by
    rw [scanHex] at h
    · cases h
    · simp
  | [_, _, _], us, r, q, h => by
    rw [scanHex] at h
    · cases h
    · simp
  | w :: x :: y :: z :: t, us, r, q, h => by
    rw [scanHex] at h
    obtain ⟨u, hu, h⟩ := Option.bind_eq_some_iff.1 h
    obtain ⟨ws, hws, rfl⟩ := prepend_eq_some h
    simp only [List.cons_append]
    rw [scanHex, hu, scanUnits_append t ws r q hws]
    rfl

end

theorem eq_append_of_afterWord (h : afterWord w p = some r) : p = w ++ r := by
  unfold afterWord at h
  split at h
  · rename_i hpre
    obtain ⟨u, hu⟩ := List.isPrefixOf_iff_prefix.1 hpre
    cases h
    rw [← hu, List.drop_left]
  · cases h

theorem ends_of_skipWs {u u' : Text} (h : skipWs u = c :: u')
    (hc : c = ',' ∨ c = ']' ∨ c = '\x7d') : u ≠ [] ∧ Ends u := by
  cases u with
  | nil => cases h
  | cons d t =>
    refine ⟨List.cons_ne_nil _ _, ?_⟩
    cases hd : isJsonSpace d with
    | true =>
      simp only [isJsonSpace, Bool.or_eq_true, decide_eq_true_eq] at hd
      rcases hd with ((rfl | rfl) | rfl) | rfl <;> exact ⟨rfl, by decide⟩
    | false =>
      rw [skipWs_of_not_space hd] at h
      cases h
      rcases hc with rfl | rfl | rfl <;> exact ⟨rfl, by decide⟩

section
variable [FiniteFloat F] [DecidableEq F]

section
omit [DecidableEq F]

theorem scanConstant_append {v : PyValue F} (h : scanConstant p = some (v, r)) (hr : r ≠ [])
    (hends : Ends r) (q : Text) : scanConstant (p ++ q) = some (v, r ++ q) := by
  unfold scanConstant at h
  split at h
  · rename_i l u hscan
    cases h
    rw [scanConstant, scanNumber_append hscan hr hends q]
  · split at h
    · rename_i hw
      cases h
      rw [eq_append_of_afterWord hw]
      rfl
    split at h
    · rename_i hw
      cases h
      rw [eq_append_of_afterWord hw]
      rfl
    split at h
    · rename_i hw
      cases h
      rw [eq_append_of_afterWord hw]
      rfl
    split at h
    · rename_i hw
      cases h
      rw [eq_append_of_afterWord hw]
      rfl
    split at h
    · rename_i hw
      cases h
      rw [eq_append_of_afterWord hw]
      rfl
    split at h
    · rename_i hw
      cases h
      rw [eq_append_of_afterWord hw]
      rfl
    · cases h

end

theorem skipWs_append_of_ne_nil {t : Text} (h : skipWs t ≠ []) (q : Text) :
    skipWs (t ++ q) = skipWs t ++ q := by
  cases hs : skipWs t with
  | nil => exact absurd hs h
  | cons c u => exact skipWs_append hs q

theorem skipWs_append_of_scanList {vs : List (PyValue F)}
    (h : scanList n (skipWs t) = some (vs, r)) (q : Text) :
    skipWs (t ++ q) = skipWs t ++ q := by
  apply skipWs_append_of_ne_nil
  intro hnil
  rw [hnil] at h
  cases n with
  | zero =>
    rw [scanList] at h
    cases h
  | succ n =>
    rw [scanList] at h
    obtain ⟨x, hx, _⟩ := Option.bind_eq_some_iff.1 h
    cases n with
    | zero =>
      rw [scanOnce] at hx
      cases hx
    | succ n =>
      rw [scanOnce] at hx
      cases hx

theorem skipWs_append_of_scanOnce {v : PyValue F}
    (h : scanOnce n (skipWs t) = some (v, r)) (q : Text) :
    skipWs (t ++ q) = skipWs t ++ q := by
  apply skipWs_append_of_ne_nil
  intro hnil
  rw [hnil] at h
  cases n with
  | zero =>
    rw [scanOnce] at h
    cases h
  | succ n =>
    rw [scanOnce] at h
    cases h

theorem skipWs_append_of_scanItems {ps : List (PyKey F × PyValue F)}
    (h : scanItems n (skipWs t) = some (ps, r)) (q : Text) :
    skipWs (t ++ q) = skipWs t ++ q := by
  apply skipWs_append_of_ne_nil
  intro hnil
  rw [hnil] at h
  cases n with
  | zero =>
    rw [scanItems] at h
    cases h
  | succ n =>
    rw [scanItems] at h
    cases h

theorem scanOnce_brace_append {v : PyValue F} {n m : ℕ}
    (hitems : ∀ p (ps : List (PyKey F × PyValue F)) r q, scanItems n p = some (ps, r) →
      scanItems m (p ++ q) = some (ps, r ++ q))
    (h : scanOnce (n + 1) ('\x7b' :: t) = some (v, r)) (q : Text) :
    scanOnce (m + 1) ('\x7b' :: t ++ q) = some (v, r ++ q) := by
  rw [scanOnce, if_neg (by decide), if_pos rfl] at h
  rw [List.cons_append, scanOnce, if_neg (by decide), if_pos rfl]
  cases hs : skipWs t with
  | nil =>
    rw [hs] at h
    cases h
  | cons d u =>
    rw [hs] at h
    rw [skipWs_append hs q]
    dsimp only at h ⊢
    by_cases hd : d = '\x7d'
    · rw [if_pos hd] at h ⊢
      cases h
      rfl
    · rw [if_neg hd] at h ⊢
      obtain ⟨⟨ps, r'⟩, hps, h⟩ := Option.bind_eq_some_iff.1 h
      cases h
      have hext := hitems (d :: u) ps r' q hps
      rw [List.cons_append] at hext
      rw [hext]
      rfl

theorem scanOnce_bracket_append {v : PyValue F} {n m : ℕ}
    (hlist : ∀ p (vs : List (PyValue F)) r q, scanList n p = some (vs, r) →
      scanList m (p ++ q) = some (vs, r ++ q))
    (h : scanOnce (n + 1) ('[' :: t) = some (v, r)) (q : Text) :
    scanOnce (m + 1) ('[' :: t ++ q) = some (v, r ++ q) := by
  rw [scanOnce, if_neg (by decide), if_neg (by decide), if_pos rfl] at h
  rw [List.cons_append, scanOnce, if_neg (by decide), if_neg (by decide), if_pos rfl]
  cases hs : skipWs t with
  | nil =>
    rw [hs] at h
    cases h
  | cons d u =>
    rw [hs] at h
    rw [skipWs_append hs q]
    dsimp only at h ⊢
    by_cases hd : d = ']'
    · rw [if_pos hd] at h ⊢
      cases h
      rfl
    · rw [if_neg hd] at h ⊢
      obtain ⟨⟨vs, r'⟩, hvs, h⟩ := Option.bind_eq_some_iff.1 h
      cases h
      have hext := hlist (d :: u) vs r' q hvs
      rw [List.cons_append] at hext
      rw [hext]
      rfl

mutual

/-- What follows a value that has ended does not change it, and more fuel does not either. -/
theorem scanOnce_append : (n m : ℕ) → (p : Text) → (v : PyValue F) → (r q : Text) →
    scanOnce n p = some (v, r) → n ≤ m → r ≠ [] → Ends r →
    scanOnce m (p ++ q) = some (v, r ++ q)
  | 0, m, p, v, r, q, h, _, _, _ => by
    rw [scanOnce] at h
    cases h
  | n + 1, 0, p, v, r, q, _, hm, _, _ => by omega
  | n + 1, m + 1, [], v, r, q, h, _, _, _ => by
    rw [scanOnce] at h
    cases h
  | n + 1, m + 1, c :: t, v, r, q, h, hm, hr, hends => by
    by_cases hq : c = '"'
    · rw [scanOnce, if_pos hq] at h
      rw [List.cons_append, scanOnce, if_pos hq]
      obtain ⟨⟨us, u⟩, hus, h⟩ := Option.bind_eq_some_iff.1 h
      cases h
      rw [scanUnits_append t us r q hus]
      rfl
    · by_cases hbrace : c = '\x7b'
      · subst hbrace
        exact scanOnce_brace_append
          (fun p ps r q h => scanItems_append n m p ps r q h (by omega)) h q
      · by_cases hbracket : c = '['
        · subst hbracket
          exact scanOnce_bracket_append
            (fun p vs r q h => scanList_append n m p vs r q h (by omega)) h q
        · rw [scanOnce, if_neg hq, if_neg hbrace, if_neg hbracket] at h
          rw [List.cons_append, scanOnce, if_neg hq, if_neg hbrace, if_neg hbracket]
          exact scanConstant_append h hr hends q
termination_by structural n => n

theorem scanList_append : (n m : ℕ) → (p : Text) → (vs : List (PyValue F)) → (r q : Text) →
    scanList n p = some (vs, r) → n ≤ m → scanList m (p ++ q) = some (vs, r ++ q)
  | 0, m, p, vs, r, q, h, _ => by
    rw [scanList] at h
    cases h
  | n + 1, 0, p, vs, r, q, _, hm => by omega
  | n + 1, m + 1, p, vs, r, q, h, hm => by
    rw [scanList] at h
    obtain ⟨⟨v, u⟩, hv, h⟩ := Option.bind_eq_some_iff.1 h
    dsimp only at h
    cases hs : skipWs u with
    | nil =>
      rw [hs] at h
      cases h
    | cons c t =>
      rw [hs] at h
      dsimp only at h
      by_cases hclose : c = ']'
      · rw [if_pos hclose] at h
        cases h
        obtain ⟨hu, hends⟩ := ends_of_skipWs hs (.inr (.inl hclose))
        have hv' := scanOnce_append n m p v u q hv (by omega) hu hends
        rw [scanList, hv']
        simp only [Option.bind_eq_bind, Option.bind_some, skipWs_append hs q, if_pos hclose]
      · rw [if_neg hclose] at h
        by_cases hcomma : c = ','
        · rw [if_pos hcomma] at h
          obtain ⟨⟨ws, r'⟩, hws, h⟩ := Option.bind_eq_some_iff.1 h
          cases h
          obtain ⟨hu, hends⟩ := ends_of_skipWs hs (.inl hcomma)
          have hv' := scanOnce_append n m p v u q hv (by omega) hu hends
          have hskip := skipWs_append_of_scanList hws q
          have hws' := scanList_append n m (skipWs t) ws r' q hws (by omega)
          rw [← hskip] at hws'
          rw [scanList, hv']
          simp only [Option.bind_eq_bind, Option.bind_some, skipWs_append hs q, if_neg hclose,
            if_pos hcomma, hws']
        · rw [if_neg hcomma] at h
          cases h
termination_by structural n => n

theorem scanItems_append : (n m : ℕ) → (p : Text) → (ps : List (PyKey F × PyValue F)) →
    (r q : Text) → scanItems n p = some (ps, r) → n ≤ m →
    scanItems m (p ++ q) = some (ps, r ++ q)
  | 0, m, p, ps, r, q, h, _ => by
    rw [scanItems] at h
    cases h
  | n + 1, 0, p, ps, r, q, _, hm => by omega
  | n + 1, m + 1, [], ps, r, q, h, _ => by
    rw [scanItems] at h
    cases h
  | n + 1, m + 1, c :: p, ps, r, q, h, hm => by
    rw [scanItems] at h
    by_cases hq : c = '"'
    · rw [if_pos hq] at h
      obtain ⟨⟨us, u⟩, hus, h⟩ := Option.bind_eq_some_iff.1 h
      dsimp only at h
      cases hs : skipWs u with
      | nil =>
        rw [hs] at h
        cases h
      | cons d t =>
        rw [hs] at h
        dsimp only at h
        by_cases hcolon : d = ':'
        · rw [if_pos hcolon] at h
          obtain ⟨⟨v, w⟩, hv, h⟩ := Option.bind_eq_some_iff.1 h
          dsimp only at h
          cases hs' : skipWs w with
          | nil =>
            rw [hs'] at h
            cases h
          | cons e t' =>
            rw [hs'] at h
            dsimp only at h
            have hskip := skipWs_append_of_scanOnce hv q
            by_cases hclose : e = '\x7d'
            · rw [if_pos hclose] at h
              cases h
              obtain ⟨hw, hends⟩ := ends_of_skipWs hs' (.inr (.inr hclose))
              have hv' := scanOnce_append n m (skipWs t) v w q hv (by omega) hw hends
              rw [← hskip] at hv'
              rw [List.cons_append, scanItems, if_pos hq, scanUnits_append p us u q hus]
              simp only [Option.bind_eq_bind, Option.bind_some, skipWs_append hs q,
                if_pos hcolon, hv', skipWs_append hs' q, if_pos hclose]
            · rw [if_neg hclose] at h
              by_cases hcomma : e = ','
              · rw [if_pos hcomma] at h
                obtain ⟨⟨ps', r'⟩, hps, h⟩ := Option.bind_eq_some_iff.1 h
                cases h
                obtain ⟨hw, hends⟩ := ends_of_skipWs hs' (.inl hcomma)
                have hv' := scanOnce_append n m (skipWs t) v w q hv (by omega) hw hends
                rw [← hskip] at hv'
                have hps' := scanItems_append n m (skipWs t') ps' r' q hps (by omega)
                rw [← skipWs_append_of_scanItems hps q] at hps'
                rw [List.cons_append, scanItems, if_pos hq, scanUnits_append p us u q hus]
                simp only [Option.bind_eq_bind, Option.bind_some, skipWs_append hs q,
                  if_pos hcolon, hv', skipWs_append hs' q, if_neg hclose, if_pos hcomma, hps']
              · rw [if_neg hcomma] at h
                cases h
        · rw [if_neg hcolon] at h
          cases h
    · rw [if_neg hq] at h
      cases h
termination_by structural n => n

end

section
omit [DecidableEq F]

theorem head_dumps_dict (l : List (PyKey F × PyValue F)) : ∃ t, dumps (.dict l) = '\x7b' :: t := by
  cases l with
  | nil => exact ⟨_, by rw [dumps]⟩
  | cons x l => exact ⟨_, by rw [dumps]⟩

end

theorem loads_dict_take {l : List (PyKey F × PyValue F)} {p q : Text}
    (h : dumps (.dict l) = p ++ q) (hp : p ≠ []) (hq : q ≠ []) :
    (loads p : Option (PyValue F)) = none := by
  obtain ⟨t, rfl⟩ : ∃ t, p = '\x7b' :: t := by
    obtain ⟨u, hu⟩ := head_dumps_dict l
    cases p with
    | nil => exact absurd rfl hp
    | cons c t =>
      rw [hu, List.cons_append] at h
      rw [(List.cons.inj h).1]
      exact ⟨t, rfl⟩
  unfold loads
  rw [skipWs_of_not_space rfl]
  cases hs : (scanOnce (2 * ('\x7b' :: t).length + 2) ('\x7b' :: t) :
      Option (PyValue F × Text)) with
  | none => rfl
  | some x =>
    obtain ⟨v, r⟩ := x
    have hlen : ('\x7b' :: t).length ≤ (dumps (.dict l)).length := by
      rw [h, List.length_append]
      omega
    have hext := scanOnce_brace_append (m := 2 * (dumps (.dict l)).length + 1)
      (fun p ps r q hps => scanItems_append _ _ p ps r q hps (by omega)) hs q
    have hfull := scanOnce_dumps (.dict l) (2 * (dumps (.dict l)).length + 2) [] (by omega) trivial
    rw [List.append_nil] at hfull
    rw [← h, hfull, Option.some.injEq, Prod.mk.injEq] at hext
    exact absurd (List.append_eq_nil_iff.1 hext.2.symm).2 hq

end

theorem le_toNat_of_isDigit {c : Char} (h : c.isDigit = true) : 32 ≤ c.toNat := by
  simp only [Char.isDigit, Bool.and_eq_true, decide_eq_true_eq] at h
  have hle : (48 : UInt32) ≤ c.val := h.1
  have hnat : 48 ≤ c.val.toNat := hle
  change 32 ≤ c.val.toNat
  omega

theorem le_toNat_of_all {t : Text} (h : t.all (fun c => 32 ≤ c.toNat) = true) :
    ∀ c ∈ t, 32 ≤ c.toNat :=
  fun c hc => of_decide_eq_true (List.all_eq_true.1 h c hc)

theorem le_toNat_digitChar : ∀ d < 16, 32 ≤ (Nat.digitChar d).toNat := by
  decide

theorem le_toNat_signText {s : Option Bool} (h : c ∈ signText s) : 32 ≤ c.toNat := by
  cases s with
  | none => cases h
  | some b =>
    cases b with
    | true =>
      rw [List.mem_singleton.1 h]
      decide
    | false =>
      rw [List.mem_singleton.1 h]
      decide

theorem le_toNat_number {l : NumberLit} (h : c ∈ l.text) : 32 ≤ c.toNat := by
  obtain ⟨neg, n, frac, exp⟩ := l
  simp only [NumberLit.text, List.mem_append] at h
  rcases h with h | h | h | h
  · split at h
    · rw [List.mem_singleton.1 h]
      decide
    · cases h
  · exact le_toNat_of_isDigit (Nat.isDigit_of_mem_toDigits (by decide) (by decide) h)
  · cases frac with
    | nil => cases h
    | cons d ds =>
      rcases List.mem_cons.1 h with rfl | h
      · decide
      · exact le_toNat_of_isDigit (isDigit_digitChars h)
  · cases exp with
    | none => cases h
    | some e =>
      rcases List.mem_cons.1 h with rfl | h
      · decide
      · rcases List.mem_append.1 h with h | h
        · exact le_toNat_signText h
        · exact le_toNat_of_isDigit (isDigit_digitChars h)

theorem le_toNat_u4 (h : c ∈ u4 n) : 32 ≤ c.toNat := by
  simp only [u4, List.mem_cons, List.not_mem_nil, or_false] at h
  have hd := fun m => le_toNat_digitChar (m % 16) (Nat.mod_lt m (by decide))
  rcases h with rfl | rfl | rfl | rfl | rfl | rfl
  · decide
  · decide
  · exact hd _
  · exact hd _
  · exact hd _
  · exact hd _

theorem le_toNat_escape {x : CodePoint} (h : c ∈ escape x) : 32 ≤ c.toNat := by
  have hpair : ∀ e : Char, 32 ≤ e.toNat → c ∈ ['\\', e] → 32 ≤ c.toNat := by
    intro e he hc
    rcases List.mem_cons.1 hc with rfl | hc
    · decide
    · rw [List.mem_singleton.1 hc]
      exact he
  unfold escape at h
  split at h
  · exact hpair _ (by decide) h
  split at h
  · exact hpair _ (by decide) h
  split at h
  · exact hpair _ (by decide) h
  split at h
  · exact hpair _ (by decide) h
  split at h
  · exact hpair _ (by decide) h
  split at h
  · exact hpair _ (by decide) h
  split at h
  · exact hpair _ (by decide) h
  split at h
  · rename_i hx
    rw [List.mem_singleton.1 h, ascii_ofNat (by omega)]
    exact hx.1
  split at h
  · exact le_toNat_u4 h
  · rcases List.mem_append.1 h with h | h
    · exact le_toNat_u4 h
    · exact le_toNat_u4 h

theorem le_toNat_dumpsStr (h : c ∈ dumpsStr s) : 32 ≤ c.toNat := by
  rcases List.mem_cons.1 h with rfl | h
  · decide
  · rcases List.mem_append.1 h with h | h
    · obtain ⟨x, _, hx⟩ := List.mem_flatMap.1 h
      exact le_toNat_escape hx
    · rw [List.mem_singleton.1 h]
      decide

section
variable [FiniteFloat F]

theorem le_toNat_dumpsFloat {f : PyFloat F} (h : c ∈ dumpsFloat f) : 32 ≤ c.toNat := by
  cases f with
  | finite f => exact le_toNat_number h
  | inf neg =>
    cases neg with
    | false =>
      rw [dumpsFloat] at h
      exact le_toNat_of_all (by decide) c h
    | true =>
      rw [dumpsFloat] at h
      exact le_toNat_of_all (by decide) c h
  | nan =>
    rw [dumpsFloat] at h
    exact le_toNat_of_all (by decide) c h

theorem le_toNat_element {d : Char} {v r : Text} (hd : 32 ≤ d.toNat)
    (hv : ∀ c ∈ v, 32 ≤ c.toNat) (hr : ∀ c ∈ r, 32 ≤ c.toNat) (h : c ∈ d :: (v ++ r)) :
    32 ≤ c.toNat := by
  rcases List.mem_cons.1 h with rfl | h
  · exact hd
  · rcases List.mem_append.1 h with h | h
    · exact hv c h
    · exact hr c h

theorem le_toNat_item {v r : Text} (hv : ∀ c ∈ v, 32 ≤ c.toNat) (hr : ∀ c ∈ r, 32 ≤ c.toNat)
    (h : c ∈ dumpsStr s ++ ':' :: (v ++ r)) : 32 ≤ c.toNat := by
  rcases List.mem_append.1 h with h | h
  · exact le_toNat_dumpsStr h
  · exact le_toNat_element (by decide) hv hr h

mutual

theorem le_toNat_dumps : (v : PyValue F) → ∀ c ∈ dumps v, 32 ≤ c.toNat
  | .none => by
    rw [dumps]
    exact le_toNat_of_all (by decide)
  | .bool true => by
    rw [dumps]
    exact le_toNat_of_all (by decide)
  | .bool false => by
    rw [dumps]
    exact le_toNat_of_all (by decide)
  | .int i => by
    rw [dumps]
    exact fun c hc => le_toNat_number hc
  | .float f => by
    rw [dumps]
    exact fun c hc => le_toNat_dumpsFloat hc
  | .str s => by
    rw [dumps]
    exact fun c hc => le_toNat_dumpsStr hc
  | .list [] => by
    rw [dumps]
    exact le_toNat_of_all (by decide)
  | .list (v :: l) => by
    rw [dumps]
    exact fun c hc => le_toNat_element (by decide) (le_toNat_dumps v) (le_toNat_dumpsRest l) hc
  | .tuple [] => by
    rw [dumps]
    exact le_toNat_of_all (by decide)
  | .tuple (v :: l) => by
    rw [dumps]
    exact fun c hc => le_toNat_element (by decide) (le_toNat_dumps v) (le_toNat_dumpsRest l) hc
  | .dict [] => by
    rw [dumps]
    exact le_toNat_of_all (by decide)
  | .dict ((k, v) :: l) => by
    rw [dumps]
    intro c hc
    rcases List.mem_cons.1 hc with rfl | hc
    · decide
    · exact le_toNat_item (le_toNat_dumps v) (le_toNat_dumpsItemsRest l) hc

theorem le_toNat_dumpsRest : (l : List (PyValue F)) → ∀ c ∈ dumpsRest l, 32 ≤ c.toNat
  | [] => by
    rw [dumpsRest]
    exact le_toNat_of_all (by decide)
  | v :: l => by
    rw [dumpsRest]
    exact fun c hc => le_toNat_element (by decide) (le_toNat_dumps v) (le_toNat_dumpsRest l) hc

theorem le_toNat_dumpsItemsRest : (l : List (PyKey F × PyValue F)) →
    ∀ c ∈ dumpsItemsRest l, 32 ≤ c.toNat
  | [] => by
    rw [dumpsItemsRest]
    exact le_toNat_of_all (by decide)
  | (k, v) :: l => by
    rw [dumpsItemsRest]
    intro c hc
    rcases List.mem_cons.1 hc with rfl | hc
    · decide
    · exact le_toNat_item (le_toNat_dumps v) (le_toNat_dumpsItemsRest l) hc

end

end

end Suprime
