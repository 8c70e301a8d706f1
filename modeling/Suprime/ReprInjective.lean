import Suprime.PyRepr

namespace Suprime
set_option autoImplicit true

section
variable [UnicodeData]

theorem head_reprChar {q : Char} (hq : IsQuote q) (c : CodePoint) :
    ∃ e t, reprChar q c = e :: t ∧ e ≠ q := by
  have hback : '\\' ≠ q := by
    rcases hq with rfl | rfl <;> decide
  unfold reprChar
  by_cases h₁ : c.val = q.toNat ∨ c.val = 92
  · rw [if_pos h₁]
    exact ⟨_, _, rfl, hback⟩
  rw [if_neg h₁]
  have hne : c.val ≠ q.toNat := fun h => h₁ (.inl h)
  split
  · exact ⟨_, _, rfl, hback⟩
  split
  · exact ⟨_, _, rfl, hback⟩
  split
  · exact ⟨_, _, rfl, hback⟩
  split
  · rename_i h
    exact ⟨_, _, rfl, ofNat_ne (valid_of_ascii h.2) hne⟩
  split
  · rename_i h
    exact ⟨_, _, rfl, ofNat_ne (valid_of_printable h.2) hne⟩
  split
  · exact ⟨_, _, rfl, hback⟩
  split
  · exact ⟨_, _, rfl, hback⟩
  · exact ⟨_, _, rfl, hback⟩

theorem quote_ne_flatMap {q : Char} (hq : IsQuote q) (c : CodePoint) (s : PyStr) (r r' : Text) :
    q :: r ≠ (c :: s).flatMap (reprChar q) ++ r' := by
  obtain ⟨e, t, he, hne⟩ := head_reprChar hq c
  rw [List.flatMap_cons, he]
  intro h
  exact hne (List.cons.inj h).1.symm

theorem flatMap_reprChar_cancel {q : Char} (hq : IsQuote q) {s t : PyStr} {r r' : Text}
    (h : s.flatMap (reprChar q) ++ q :: r = t.flatMap (reprChar q) ++ q :: r') :
    s = t ∧ r = r' := by
  induction s generalizing t with
  | nil =>
    cases t with
    | nil => exact ⟨rfl, (List.cons.inj h).2⟩
    | cons d t => exact absurd h (quote_ne_flatMap hq d t _ _)
  | cons c s ih =>
    cases t with
    | nil => exact absurd h.symm (quote_ne_flatMap hq c s _ _)
    | cons d t =>
      rw [List.flatMap_cons, List.flatMap_cons, List.append_assoc, List.append_assoc] at h
      have hread := congrArg unreprChar h
      rw [unreprChar_reprChar hq, unreprChar_reprChar hq, Option.some.injEq,
        Prod.mk.injEq] at hread
      obtain ⟨rfl, hrest⟩ := hread
      obtain ⟨rfl, hr⟩ := ih hrest
      exact ⟨rfl, hr⟩

theorem reprStr_cancel {s t : PyStr} {r r' : Text} (h : reprStr s ++ r = reprStr t ++ r') :
    s = t ∧ r = r' := by
  simp only [reprStr, List.cons_append, List.append_assoc, List.nil_append] at h
  obtain ⟨hq, hbody⟩ := List.cons.inj h
  rw [hq] at hbody
  exact flatMap_reprChar_cancel (quoteOf_isQuote t) hbody

/-- What can follow a value inside another one. -/
def ReprEnds : Text → Prop
  | [] => True
  | c :: _ => c = ',' ∨ c = ':' ∨ c = ']' ∨ c = ')' ∨ c = '\x7d'

section
omit [UnicodeData]

theorem ReprEnds.ends (h : ReprEnds r) : Ends r := by
  cases r with
  | nil => trivial
  | cons c r =>
    rcases h with rfl | rfl | rfl | rfl | rfl <;>
      exact ⟨by decide, by decide, by decide, by decide⟩

end

variable [FiniteFloat F]

/-- Reads the `repr` of a key that is not a string. -/
def unreprWord (t : Text) : Option (PyKey F × Text) :=
  match scanNumber t with
  | some (l, r) => some (if l.isInt then .int l.toInt else .float (FiniteFloat.ofLit l), r)
  | none =>
    match t with
    | 'N' :: 'o' :: 'n' :: 'e' :: r => some (.none, r)
    | 'T' :: 'r' :: 'u' :: 'e' :: r => some (.bool true, r)
    | 'F' :: 'a' :: 'l' :: 's' :: 'e' :: r => some (.bool false, r)
    | 'i' :: 'n' :: 'f' :: r => some (.float (.inf false), r)
    | '-' :: 'i' :: 'n' :: 'f' :: r => some (.float (.inf true), r)
    | 'n' :: 'a' :: 'n' :: r => some (.float .nan, r)
    | _ => none

section
omit [UnicodeData]

theorem unreprWord_number (l : NumberLit) (hr : Ends r) :
    unreprWord (l.text ++ r) =
      some (if l.isInt then .int l.toInt else .float (FiniteFloat.ofLit l : PyFloat F), r) := by
  unfold unreprWord
  rw [scanNumber_text l hr]

end

theorem unreprWord_reprKey {k : PyKey F} (hk : ∀ s, k ≠ .str s) (hr : Ends r) :
    unreprWord (reprKey k ++ r) = some (k, r) := by
  cases k with
  | none => rfl
  | bool b =>
    cases b with
    | true => rfl
    | false => rfl
  | int i =>
    rw [reprKey, unreprWord_number _ hr, NumberLit.toInt_ofInt]
    rfl
  | float f =>
    cases f with
    | finite f =>
      rw [reprKey, reprFloat, unreprWord_number _ hr, FiniteFloat.lit_isFloat,
        FiniteFloat.ofLit_lit]
      rfl
    | inf b =>
      cases b with
      | true => rfl
      | false => rfl
    | nan => rfl
  | str s => exact absurd rfl (hk s)

def isWordHead (c : Char) : Bool :=
  c.isDigit || c = '-' || c = 'N' || c = 'T' || c = 'F' || c = 'i' || c = 'n'

section
omit [UnicodeData]

theorem head_number (l : NumberLit) : ∃ c t, l.text = c :: t ∧ isWordHead c = true := by
  obtain ⟨c, t, ht, hc⟩ := l.head_text
  refine ⟨c, t, ht, ?_⟩
  rcases hc with rfl | hc
  · rfl
  · simp [isWordHead, hc]

end

theorem head_reprWord {k : PyKey F} (hk : ∀ s, k ≠ .str s) :
    ∃ c t, reprKey k = c :: t ∧ isWordHead c = true := by
  cases k with
  | none => exact ⟨_, _, rfl, rfl⟩
  | bool b =>
    cases b with
    | true => exact ⟨_, _, rfl, rfl⟩
    | false => exact ⟨_, _, rfl, rfl⟩
  | int i => exact head_number _
  | float f =>
    cases f with
    | finite f => exact head_number _
    | inf b =>
      cases b with
      | true => exact ⟨_, _, rfl, rfl⟩
      | false => exact ⟨_, _, rfl, rfl⟩
    | nan => exact ⟨_, _, rfl, rfl⟩
  | str s => exact absurd rfl (hk s)

theorem reprStr_ne_reprWord {k : PyKey F} (hk : ∀ s, k ≠ .str s) (s : PyStr) (r r' : Text) :
    reprStr s ++ r ≠ reprKey k ++ r' := by
  obtain ⟨c, t, ht, hc⟩ := head_reprWord hk
  rw [ht]
  intro h
  rw [← (List.cons.inj h).1] at hc
  rcases quoteOf_isQuote s with hq | hq
  · rw [hq] at hc
    cases hc
  · rw [hq] at hc
    cases hc

theorem reprKey_cancel {k k' : PyKey F} {r r' : Text} (hr : ReprEnds r) (hr' : ReprEnds r')
    (h : reprKey k ++ r = reprKey k' ++ r') : k = k' ∧ r = r' := by
  by_cases hk : ∃ s, k = .str s
  · obtain ⟨s, rfl⟩ := hk
    by_cases hk' : ∃ s', k' = .str s'
    · obtain ⟨s', rfl⟩ := hk'
      obtain ⟨rfl, hrest⟩ := reprStr_cancel h
      exact ⟨rfl, hrest⟩
    · exact absurd h (reprStr_ne_reprWord (not_exists.1 hk') s r r')
  · by_cases hk' : ∃ s', k' = .str s'
    · obtain ⟨s', rfl⟩ := hk'
      exact absurd h.symm (reprStr_ne_reprWord (not_exists.1 hk) s' r' r)
    · have hread := congrArg (unreprWord (F := F)) h
      rw [unreprWord_reprKey (not_exists.1 hk) hr.ends,
        unreprWord_reprKey (not_exists.1 hk') hr'.ends, Option.some.injEq, Prod.mk.injEq] at hread
      exact hread

/-- The text of a value begins neither with a closing bracket nor with a separator. -/
def isOpening (c : Char) : Bool :=
  isWordHead c || c = '\x27' || c = '"' || c = '[' || c = '(' || c = '\x7b'

theorem head_reprKey (k : PyKey F) : ∃ c t, reprKey k = c :: t ∧ isOpening c = true ∧
    c ≠ '[' ∧ c ≠ '(' ∧ c ≠ '\x7b' := by
  by_cases hk : ∃ s, k = .str s
  · obtain ⟨s, rfl⟩ := hk
    refine ⟨_, _, rfl, ?_⟩
    rcases quoteOf_isQuote s with hq | hq <;> rw [hq] <;> decide
  · obtain ⟨c, t, ht, hc⟩ := head_reprWord (not_exists.1 hk)
    refine ⟨c, t, ht, by simp [isOpening, hc], ?_, ?_, ?_⟩
    · rintro rfl
      cases hc
    · rintro rfl
      cases hc
    · rintro rfl
      cases hc

/-- What follows the first element of a tuple. -/
def tupleRest : List (PyValue F) → Text
  | [] => [',', ')']
  | v :: l => reprRest ')' (v :: l)

theorem repr_list_cons (v : PyValue F) (l : List (PyValue F)) :
    repr (.list (v :: l)) = '[' :: (repr v ++ reprRest ']' l) := by
  rw [repr]

theorem repr_tuple_cons (v : PyValue F) (l : List (PyValue F)) :
    repr (.tuple (v :: l)) = '(' :: (repr v ++ tupleRest l) := by
  cases l with
  | nil => rw [repr, tupleRest]
  | cons w l => rw [repr, tupleRest, reprRest]

theorem repr_dict_cons (k : PyKey F) (v : PyValue F) (l : List (PyKey F × PyValue F)) :
    repr (.dict ((k, v) :: l)) =
      '\x7b' :: (reprKey k ++ ':' :: ' ' :: (repr v ++ reprItemsRest l)) := by
  rw [repr]

theorem head_repr_list (l : List (PyValue F)) : ∃ t, repr (.list l) = '[' :: t := by
  cases l with
  | nil => exact ⟨_, by rw [repr]⟩
  | cons v l => exact ⟨_, repr_list_cons v l⟩

theorem head_repr_tuple (l : List (PyValue F)) : ∃ t, repr (.tuple l) = '(' :: t := by
  cases l with
  | nil => exact ⟨_, by rw [repr]⟩
  | cons v l => exact ⟨_, repr_tuple_cons v l⟩

theorem head_repr_dict (l : List (PyKey F × PyValue F)) : ∃ t, repr (.dict l) = '\x7b' :: t := by
  cases l with
  | nil => exact ⟨_, by rw [repr]⟩
  | cons x l => exact ⟨_, repr_dict_cons x.1 x.2 l⟩

def opening : PyValue F → Option Char
  | .list _ => some '['
  | .tuple _ => some '('
  | .dict _ => some '\x7b'
  | _ => none

theorem head_of_opening {v : PyValue F} (h : opening v = some c) : ∃ t, repr v = c :: t := by
  cases v with
  | list l =>
    cases h
    exact head_repr_list l
  | tuple l =>
    cases h
    exact head_repr_tuple l
  | dict l =>
    cases h
    exact head_repr_dict l
  | _ => cases h

theorem key_of_opening {v : PyValue F} (h : opening v = none) :
    ∃ k : PyKey F, v = k.toValue ∧ repr v = reprKey k := by
  cases v with
  | none => exact ⟨.none, rfl, by rw [repr]⟩
  | bool b => exact ⟨.bool b, rfl, by rw [repr]⟩
  | int i => exact ⟨.int i, rfl, by rw [repr]⟩
  | float f => exact ⟨.float f, rfl, by rw [repr]⟩
  | str s => exact ⟨.str s, rfl, by rw [repr]⟩
  | _ => cases h

section
omit [UnicodeData] [FiniteFloat F]

theorem isBracket_of_opening {v : PyValue F} (h : opening v = some c) :
    c = '[' ∨ c = '(' ∨ c = '\x7b' := by
  cases v with
  | list l =>
    cases h
    exact .inl rfl
  | tuple l =>
    cases h
    exact .inr (.inl rfl)
  | dict l =>
    cases h
    exact .inr (.inr rfl)
  | _ => cases h

end

theorem head_repr (v : PyValue F) : ∃ c t, repr v = c :: t ∧ isOpening c = true := by
  cases ho : opening v with
  | none =>
    obtain ⟨k, _, hk⟩ := key_of_opening ho
    obtain ⟨c, t, ht, hc, _⟩ := head_reprKey k
    exact ⟨c, t, hk.trans ht, hc⟩
  | some c =>
    obtain ⟨t, ht⟩ := head_of_opening ho
    refine ⟨c, t, ht, ?_⟩
    rcases isBracket_of_opening ho with rfl | rfl | rfl <;> rfl

theorem key_ne_container {v w : PyValue F} (hv : opening v = none) (hw : opening w = some c)
    (r r' : Text) : repr v ++ r ≠ repr w ++ r' := by
  obtain ⟨k, _, hk⟩ := key_of_opening hv
  obtain ⟨d, t, ht, _, hlist, htuple, hdict⟩ := head_reprKey k
  obtain ⟨u, hu⟩ := head_of_opening hw
  rw [hk, ht, hu]
  intro h
  have hd := (List.cons.inj h).1
  rcases isBracket_of_opening hw with rfl | rfl | rfl
  · exact hlist hd
  · exact htuple hd
  · exact hdict hd

theorem opening_eq {v w : PyValue F} {r r' : Text} (h : repr v ++ r = repr w ++ r') :
    opening v = opening w := by
  cases hv : opening v with
  | none =>
    cases hw : opening w with
    | none => rfl
    | some d => exact absurd h (key_ne_container hv hw r r')
  | some c =>
    cases hw : opening w with
    | none => exact absurd h.symm (key_ne_container hw hv r' r)
    | some d =>
      obtain ⟨t, ht⟩ := head_of_opening hv
      obtain ⟨u, hu⟩ := head_of_opening hw
      rw [ht, hu] at h
      rw [(List.cons.inj h).1]

theorem repr_cancel_key {v w : PyValue F} {r r' : Text} (hv : opening v = none)
    (hr : ReprEnds r) (hr' : ReprEnds r') (h : repr v ++ r = repr w ++ r') :
    v = w ∧ r = r' := by
  have hw := opening_eq h
  rw [hv] at hw
  obtain ⟨k, hk, htext⟩ := key_of_opening hv
  obtain ⟨k', hk', htext'⟩ := key_of_opening hw.symm
  rw [htext, htext'] at h
  obtain ⟨rfl, hrest⟩ := reprKey_cancel hr hr' h
  exact ⟨hk.trans hk'.symm, hrest⟩

theorem repr_ne_close {v : PyValue F} {c : Char} (hc : isOpening c = false) (r r' : Text) :
    repr v ++ r ≠ c :: r' := by
  obtain ⟨d, t, ht, hd⟩ := head_repr v
  rw [ht]
  intro h
  rw [(List.cons.inj h).1, hc] at hd
  cases hd

theorem reprKey_ne_close {k : PyKey F} {c : Char} (hc : isOpening c = false) (r r' : Text) :
    reprKey k ++ r ≠ c :: r' := by
  obtain ⟨d, t, ht, hd, _⟩ := head_reprKey k
  rw [ht]
  intro h
  rw [(List.cons.inj h).1, hc] at hd
  cases hd

theorem reprEnds_reprRest {close : Char} (hc : close = ']' ∨ close = ')')
    (l : List (PyValue F)) (r : Text) : ReprEnds (reprRest close l ++ r) := by
  cases l with
  | nil =>
    rw [reprRest]
    rcases hc with rfl | rfl
    · exact .inr (.inr (.inl rfl))
    · exact .inr (.inr (.inr (.inl rfl)))
  | cons v l =>
    rw [reprRest]
    exact .inl rfl

theorem reprEnds_tupleRest (l : List (PyValue F)) (r : Text) : ReprEnds (tupleRest l ++ r) := by
  cases l with
  | nil => exact .inl rfl
  | cons v l => exact reprEnds_reprRest (.inr rfl) (v :: l) r

theorem reprEnds_reprItemsRest (l : List (PyKey F × PyValue F)) (r : Text) :
    ReprEnds (reprItemsRest l ++ r) := by
  cases l with
  | nil =>
    rw [reprItemsRest]
    exact .inr (.inr (.inr (.inr rfl)))
  | cons x l =>
    rw [reprItemsRest]
    exact .inl rfl

section
omit [UnicodeData]

theorem reprEnds_colon (r : Text) : ReprEnds (':' :: r) := .inr (.inl rfl)

end

mutual

theorem repr_cancel : (v w : PyValue F) → (r r' : Text) → ReprEnds r → ReprEnds r' →
    repr v ++ r = repr w ++ r' → v = w ∧ r = r'
  | .none, _, _, _, hr, hr', h => repr_cancel_key rfl hr hr' h
  | .bool _, _, _, _, hr, hr', h => repr_cancel_key rfl hr hr' h
  | .int _, _, _, _, hr, hr', h => repr_cancel_key rfl hr hr' h
  | .float _, _, _, _, hr, hr', h => repr_cancel_key rfl hr hr' h
  | .str _, _, _, _, hr, hr', h => repr_cancel_key rfl hr hr' h
  | .list [], w, r, r', _, _, h => by
    have ho := opening_eq h
    cases w with
    | list m =>
      cases m with
      | nil => exact ⟨rfl, List.append_cancel_left h⟩
      | cons b m =>
        rw [repr, repr_list_cons] at h
        simp only [List.cons_append, List.append_assoc, List.nil_append, List.cons.injEq,
          true_and] at h
        exact absurd h.symm (repr_ne_close rfl _ _)
    | _ => cases ho
  | .list (a :: l), w, r, r', hr, hr', h => by
    have ho := opening_eq h
    cases w with
    | list m =>
      cases m with
      | nil =>
        rw [repr, repr_list_cons] at h
        simp only [List.cons_append, List.append_assoc, List.nil_append, List.cons.injEq,
          true_and] at h
        exact absurd h (repr_ne_close rfl _ _)
      | cons b m =>
        rw [repr_list_cons, repr_list_cons] at h
        simp only [List.cons_append, List.append_assoc, List.cons.injEq, true_and] at h
        obtain ⟨rfl, hrest⟩ := repr_cancel a b _ _ (reprEnds_reprRest (.inl rfl) l r)
          (reprEnds_reprRest (.inl rfl) m r') h
        obtain ⟨rfl, hr⟩ := reprRest_cancel ']' (.inl rfl) l m r r' hrest
        exact ⟨rfl, hr⟩
    | _ => cases ho
  | .tuple [], w, r, r', _, _, h => by
    have ho := opening_eq h
    cases w with
    | tuple m =>
      cases m with
      | nil => exact ⟨rfl, List.append_cancel_left h⟩
      | cons b m =>
        rw [repr, repr_tuple_cons] at h
        simp only [List.cons_append, List.append_assoc, List.nil_append, List.cons.injEq,
          true_and] at h
        exact absurd h.symm (repr_ne_close rfl _ _)
    | _ => cases ho
  | .tuple (a :: l), w, r, r', hr, hr', h => by
    have ho := opening_eq h
    cases w with
    | tuple m =>
      cases m with
      | nil =>
        rw [repr, repr_tuple_cons] at h
        simp only [List.cons_append, List.append_assoc, List.nil_append, List.cons.injEq,
          true_and] at h
        exact absurd h (repr_ne_close rfl _ _)
      | cons b m =>
        rw [repr_tuple_cons, repr_tuple_cons] at h
        simp only [List.cons_append, List.append_assoc, List.cons.injEq, true_and] at h
        obtain ⟨rfl, hrest⟩ := repr_cancel a b _ _ (reprEnds_tupleRest l r)
          (reprEnds_tupleRest m r') h
        obtain ⟨rfl, hr⟩ := tupleRest_cancel l m r r' hrest
        exact ⟨rfl, hr⟩
    | _ => cases ho
  | .dict [], w, r, r', _, _, h => by
    have ho := opening_eq h
    cases w with
    | dict m =>
      cases m with
      | nil => exact ⟨rfl, List.append_cancel_left h⟩
      | cons x m =>
        rw [repr, repr_dict_cons x.1 x.2] at h
        simp only [List.cons_append, List.append_assoc, List.nil_append, List.cons.injEq,
          true_and] at h
        exact absurd h.symm (reprKey_ne_close rfl _ _)
    | _ => cases ho
  | .dict ((k, a) :: l), w, r, r', hr, hr', h => by
    have ho := opening_eq h
    cases w with
    | dict m =>
      cases m with
      | nil =>
        rw [repr, repr_dict_cons] at h
        simp only [List.cons_append, List.append_assoc, List.nil_append, List.cons.injEq,
          true_and] at h
        exact absurd h (reprKey_ne_close rfl _ _)
      | cons x m =>
        obtain ⟨k', b⟩ := x
        rw [repr_dict_cons, repr_dict_cons] at h
        simp only [List.cons_append, List.append_assoc, List.cons.injEq, true_and] at h
        obtain ⟨rfl, hval⟩ := reprKey_cancel (reprEnds_colon _) (reprEnds_colon _) h
        simp only [List.cons.injEq, true_and] at hval
        obtain ⟨rfl, hrest⟩ := repr_cancel a b _ _ (reprEnds_reprItemsRest l r)
          (reprEnds_reprItemsRest m r') hval
        obtain ⟨rfl, hr⟩ := reprItemsRest_cancel l m r r' hrest
        exact ⟨rfl, hr⟩
    | _ => cases ho

theorem reprRest_cancel (close : Char) (hc : close = ']' ∨ close = ')') :
    (l m : List (PyValue F)) → (r r' : Text) →
    reprRest close l ++ r = reprRest close m ++ r' → l = m ∧ r = r'
  | [], [], r, r', h => by
    rw [reprRest] at h
    exact ⟨rfl, List.append_cancel_left h⟩
  | [], b :: m, r, r', h => by
    rw [reprRest, reprRest] at h
    have hcomma := (List.cons.inj h).1
    rcases hc with rfl | rfl <;> exact absurd hcomma (by decide)
  | a :: l, [], r, r', h => by
    rw [reprRest, reprRest] at h
    have hcomma := (List.cons.inj h).1
    rcases hc with rfl | rfl <;> exact absurd hcomma (by decide)
  | a :: l, b :: m, r, r', h => by
    rw [reprRest, reprRest] at h
    simp only [List.cons_append, List.append_assoc, List.cons.injEq, true_and] at h
    obtain ⟨rfl, hrest⟩ := repr_cancel a b _ _ (reprEnds_reprRest hc l r)
      (reprEnds_reprRest hc m r') h
    obtain ⟨rfl, hr⟩ := reprRest_cancel close hc l m r r' hrest
    exact ⟨rfl, hr⟩

theorem tupleRest_cancel : (l m : List (PyValue F)) → (r r' : Text) →
    tupleRest l ++ r = tupleRest m ++ r' → l = m ∧ r = r'
  | [], [], r, r', h => ⟨rfl, List.append_cancel_left h⟩
  | [], b :: m, r, r', h => by
    rw [tupleRest, tupleRest, reprRest] at h
    simp only [List.cons_append, List.cons.injEq, true_and] at h
    exact absurd h.1 (by decide)
  | a :: l, [], r, r', h => by
    rw [tupleRest, tupleRest, reprRest] at h
    simp only [List.cons_append, List.cons.injEq, true_and] at h
    exact absurd h.1 (by decide)
  | a :: l, b :: m, r, r', h => by
    rw [tupleRest, tupleRest, reprRest, reprRest] at h
    simp only [List.cons_append, List.append_assoc, List.cons.injEq, true_and] at h
    obtain ⟨rfl, hrest⟩ := repr_cancel a b _ _ (reprEnds_reprRest (.inr rfl) l r)
      (reprEnds_reprRest (.inr rfl) m r') h
    obtain ⟨rfl, hr⟩ := reprRest_cancel ')' (.inr rfl) l m r r' hrest
    exact ⟨rfl, hr⟩

theorem reprItemsRest_cancel : (l m : List (PyKey F × PyValue F)) → (r r' : Text) →
    reprItemsRest l ++ r = reprItemsRest m ++ r' → l = m ∧ r = r'
  | [], [], r, r', h => by
    rw [reprItemsRest] at h
    exact ⟨rfl, List.append_cancel_left h⟩
  | [], (k', b) :: m, r, r', h => by
    rw [reprItemsRest, reprItemsRest] at h
    exact absurd (List.cons.inj h).1 (by decide)
  | (k, a) :: l, [], r, r', h => by
    rw [reprItemsRest, reprItemsRest] at h
    exact absurd (List.cons.inj h).1 (by decide)
  | (k, a) :: l, (k', b) :: m, r, r', h => by
    rw [reprItemsRest, reprItemsRest] at h
    simp only [List.cons_append, List.append_assoc, List.cons.injEq, true_and] at h
    obtain ⟨rfl, hval⟩ := reprKey_cancel (reprEnds_colon _) (reprEnds_colon _) h
    simp only [List.cons.injEq, true_and] at hval
    obtain ⟨rfl, hrest⟩ := repr_cancel a b _ _ (reprEnds_reprItemsRest l r)
      (reprEnds_reprItemsRest m r') hval
    obtain ⟨rfl, hr⟩ := reprItemsRest_cancel l m r r' hrest
    exact ⟨rfl, hr⟩

end

theorem repr_injective : Function.Injective (repr : PyValue F → Text) := by
  intro v w h
  have hnil : repr v ++ [] = repr w ++ [] := by rw [h]
  exact (repr_cancel v w [] [] trivial trivial hnil).1

end

end Suprime
