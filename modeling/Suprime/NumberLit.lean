import Mathlib.Data.List.TakeWhile
import Mathlib.Data.Nat.Digits.Defs

namespace Suprime
set_option autoImplicit true

abbrev Text := List Char

instance neZero_ten : NeZero 10 := ⟨by decide⟩

def digitChars (ds : List (Fin 10)) : Text := ds.map (fun d => Nat.digitChar d.val)

def digitOf (c : Char) : Fin 10 := Fin.ofNat 10 (c.toNat - 48)

/-- The exponent of a number: its sign, if one is written, and its digits. -/
structure Exponent where
  sign : Option Bool
  digit : Fin 10
  digits : List (Fin 10)
  deriving DecidableEq

/-- A number as JSON and Python write it: no digits in `frac` means no decimal point. -/
structure NumberLit where
  neg : Bool
  int : ℕ
  frac : List (Fin 10)
  exp : Option Exponent
  deriving DecidableEq

def signText : Option Bool → Text
  | none => []
  | some true => ['-']
  | some false => ['+']

def fracText (frac : List (Fin 10)) : Text :=
  match frac with
  | [] => []
  | _ => '.' :: digitChars frac

def expText : Option Exponent → Text
  | none => []
  | some e => 'e' :: (signText e.sign ++ digitChars (e.digit :: e.digits))

namespace NumberLit

def text (l : NumberLit) : Text :=
  (if l.neg then ['-'] else []) ++ (Nat.toDigits 10 l.int ++ (fracText l.frac ++ expText l.exp))

def isInt (l : NumberLit) : Bool := l.frac.isEmpty && l.exp.isNone

def ofInt (i : ℤ) : NumberLit := ⟨decide (i < 0), i.natAbs, [], none⟩

def toInt (l : NumberLit) : ℤ := if l.neg then -l.int else l.int

end NumberLit

/-- Either a single `0` or digits that do not begin with it. -/
def scanInt : Text → Option (ℕ × Text)
  | [] => none
  | c :: t =>
    if c = '0' then some (0, t)
    else if c.isDigit then
      some (Nat.ofDigitChars 10 (c :: t.takeWhile Char.isDigit) 0, t.dropWhile Char.isDigit)
    else none

/-- A point counts only when digits follow it. -/
def scanFrac (t : Text) : List (Fin 10) × Text :=
  match t with
  | '.' :: t' =>
    match t'.takeWhile Char.isDigit with
    | [] => ([], t)
    | ds => (ds.map digitOf, t'.dropWhile Char.isDigit)
  | _ => ([], t)

def scanSign : Text → Option Bool × Text
  | [] => (none, [])
  | c :: t =>
    if c = '-' then (some true, t) else if c = '+' then (some false, t) else (none, c :: t)

def scanExp (t : Text) : Option Exponent × Text :=
  match t with
  | c :: t' =>
    if c = 'e' ∨ c = 'E' then
      let (sign, u) := scanSign t'
      match u.takeWhile Char.isDigit with
      | [] => (none, t)
      | d :: ds => (some ⟨sign, digitOf d, ds.map digitOf⟩, u.dropWhile Char.isDigit)
    else (none, t)
  | [] => (none, t)

def scanMinus : Text → Bool × Text
  | [] => (false, [])
  | c :: t => if c = '-' then (true, t) else (false, c :: t)

/-- The longest number at the front of a text. -/
def scanNumber (t : Text) : Option (NumberLit × Text) :=
  let (neg, u) := scanMinus t
  match scanInt u with
  | none => none
  | some (n, u) =>
    let (frac, u) := scanFrac u
    let (exp, u) := scanExp u
    some (⟨neg, n, frac, exp⟩, u)

/-- No number goes on at the front of a text. -/
def Ends : Text → Prop
  | [] => True
  | c :: _ => c.isDigit = false ∧ c ≠ '.' ∧ c ≠ 'e' ∧ c ≠ 'E'

theorem isDigit_digitChar (d : Fin 10) : (Nat.digitChar d).isDigit = true := by
  revert d
  decide

theorem digitOf_digitChar (d : Fin 10) : digitOf (Nat.digitChar d) = d := by
  revert d
  decide

theorem isDigit_digitChars (h : c ∈ digitChars ds) : c.isDigit = true := by
  obtain ⟨d, _, rfl⟩ := List.mem_map.1 h
  exact isDigit_digitChar d

theorem map_digitOf_digitChars (ds : List (Fin 10)) : (digitChars ds).map digitOf = ds := by
  induction ds with
  | nil => rfl
  | cons d ds ih =>
    simp only [digitChars, List.map_cons, digitOf_digitChar] at ih ⊢
    rw [ih]

def NoDigit : Text → Prop
  | [] => True
  | c :: _ => c.isDigit = false

theorem Ends.noDigit (h : Ends t) : NoDigit t := by
  cases t with
  | nil => trivial
  | cons c t => exact h.1

theorem takeWhile_digits {u t : Text} (hu : ∀ c ∈ u, c.isDigit = true) (ht : NoDigit t) :
    (u ++ t).takeWhile Char.isDigit = u ∧ (u ++ t).dropWhile Char.isDigit = t := by
  induction u with
  | nil =>
    cases t with
    | nil => exact ⟨rfl, rfl⟩
    | cons c t =>
      have hc : c.isDigit = false := ht
      simp [hc]
  | cons d u ih =>
    obtain ⟨h1, h2⟩ := ih (fun c hc => hu c (List.mem_cons_of_mem _ hc))
    have hd := hu d List.mem_cons_self
    simp [hd, h1, h2]

theorem digitChar_ne_zero : ∀ n < 10, 0 < n → Nat.digitChar n ≠ '0' := by
  decide

theorem head_toDigits {n : ℕ} (hn : 0 < n) : ∃ c t, Nat.toDigits 10 n = c :: t ∧ c ≠ '0' := by
  induction n using Nat.strong_induction_on with
  | h n ih =>
    by_cases hlt : n < 10
    · exact ⟨_, [], Nat.toDigits_of_lt_base hlt, digitChar_ne_zero n hlt hn⟩
    · obtain ⟨c, t, hc, hne⟩ := ih (n / 10) (by omega) (by omega)
      refine ⟨c, t ++ [Nat.digitChar (n % 10)], ?_, hne⟩
      rw [Nat.toDigits_of_base_le (by decide) (by omega), hc]
      rfl

theorem scanInt_toDigits {t : Text} (n : ℕ) (ht : NoDigit t) :
    scanInt (Nat.toDigits 10 n ++ t) = some (n, t) := by
  by_cases hn : n = 0
  · subst hn
    rfl
  · obtain ⟨c, u, hc, hne⟩ := head_toDigits (Nat.pos_of_ne_zero hn)
    have hdig : ∀ x ∈ Nat.toDigits 10 n, x.isDigit = true :=
      fun x hx => Nat.isDigit_of_mem_toDigits (by decide) (by decide) hx
    obtain ⟨h1, h2⟩ := takeWhile_digits
      (fun x hx => hdig x (by rw [hc]; exact List.mem_cons_of_mem _ hx)) ht
    have hval := Nat.ofDigitChars_ten_toDigits (n := n)
    rw [hc] at hval
    have hcd := hdig c (by rw [hc]; exact List.mem_cons_self)
    rw [hc, List.cons_append, scanInt, if_neg hne, if_pos hcd, h1, h2, hval]

theorem scanFrac_fracText (ds : List (Fin 10)) {t : Text} (hd : NoDigit t)
    (hp : ∀ u, t ≠ '.' :: u) : scanFrac (fracText ds ++ t) = (ds, t) := by
  cases ds with
  | nil =>
    change scanFrac t = ([], t)
    unfold scanFrac
    split
    · exact absurd rfl (hp _)
    · rfl
  | cons d ds =>
    obtain ⟨h1, h2⟩ := takeWhile_digits (fun c hc => isDigit_digitChars hc) hd
      (u := digitChars (d :: ds))
    have hmap := map_digitOf_digitChars (d :: ds)
    change scanFrac ('.' :: (digitChars (d :: ds) ++ t)) = _
    simp only [scanFrac, h1, h2]
    change ((digitChars (d :: ds)).map digitOf, t) = _
    rw [hmap]

theorem scanExp_expText (e : Option Exponent) {t : Text} (ht : Ends t) :
    scanExp (expText e ++ t) = (e, t) := by
  cases e with
  | none =>
    change scanExp t = _
    cases t with
    | nil => rfl
    | cons c t =>
      obtain ⟨_, _, h1, h2⟩ := ht
      simp [scanExp, h1, h2]
  | some e =>
    obtain ⟨sign, d, ds⟩ := e
    have hdig := isDigit_digitChar d
    have hsign : scanSign (signText sign ++ (digitChars (d :: ds) ++ t)) =
        (sign, digitChars (d :: ds) ++ t) := by
      cases sign with
      | none =>
        have hminus : Nat.digitChar d.val ≠ '-' := by
          intro he
          rw [he] at hdig
          cases hdig
        have hplus : Nat.digitChar d.val ≠ '+' := by
          intro he
          rw [he] at hdig
          cases hdig
        change scanSign (Nat.digitChar d.val :: (digitChars ds ++ t)) = _
        rw [scanSign, if_neg hminus, if_neg hplus]
        rfl
      | some b => cases b <;> rfl
    obtain ⟨h1, h2⟩ := takeWhile_digits (fun c hc => isDigit_digitChars hc) ht.noDigit
      (u := digitChars (d :: ds))
    change scanExp ('e' :: ((signText sign ++ digitChars (d :: ds)) ++ t)) = _
    rw [List.append_assoc]
    simp only [scanExp, hsign, h1, h2, true_or, if_true]
    change (some (⟨sign, digitOf (Nat.digitChar d.val),
      (digitChars ds).map digitOf⟩ : Exponent), t) = _
    rw [digitOf_digitChar, map_digitOf_digitChars]

theorem Ends.noPoint (h : Ends t) (u : Text) : t ≠ '.' :: u := by
  intro he
  subst he
  exact h.2.1 rfl

theorem noDigit_expText (e : Option Exponent) (ht : Ends t) : NoDigit (expText e ++ t) := by
  cases e with
  | none => exact ht.noDigit
  | some e => rfl

theorem expText_noPoint (e : Option Exponent) (ht : Ends t) (u : Text) :
    expText e ++ t ≠ '.' :: u := by
  cases e with
  | none => exact ht.noPoint u
  | some e =>
    intro he
    cases he

theorem scanNumber_text (l : NumberLit) {t : Text} (ht : Ends t) :
    scanNumber (l.text ++ t) = some (l, t) := by
  obtain ⟨neg, n, frac, exp⟩ := l
  have hrest : NoDigit (fracText frac ++ (expText exp ++ t)) := by
    cases frac with
    | nil => exact noDigit_expText exp ht
    | cons d ds => rfl
  have hint := scanInt_toDigits n hrest
  have hfrac := scanFrac_fracText frac (noDigit_expText exp ht) (expText_noPoint exp ht)
  have hexp := scanExp_expText exp ht
  cases neg with
  | true =>
    simp only [NumberLit.text, if_true, List.append_assoc, List.cons_append, List.nil_append,
      scanNumber, scanMinus, hint, hfrac, hexp]
  | false =>
    have hminus : scanMinus (Nat.toDigits 10 n ++ (fracText frac ++ (expText exp ++ t))) =
        (false, Nat.toDigits 10 n ++ (fracText frac ++ (expText exp ++ t))) := by
      cases hu : Nat.toDigits 10 n ++ (fracText frac ++ (expText exp ++ t)) with
      | nil => rfl
      | cons c u =>
        have hc : c ≠ '-' := by
          intro he
          rw [hu, he] at hint
          cases hint
        rw [scanMinus, if_neg hc]
    have htext : (NumberLit.mk false n frac exp).text ++ t =
        Nat.toDigits 10 n ++ (fracText frac ++ (expText exp ++ t)) := by
      simp [NumberLit.text]
    rw [htext]
    simp only [scanNumber, hminus, hint, hfrac, hexp]

theorem takeWhile_append_of_ne_nil {f : Char → Bool} {t : Text} (h : t.dropWhile f ≠ [])
    (q : Text) :
    (t ++ q).takeWhile f = t.takeWhile f ∧ (t ++ q).dropWhile f = t.dropWhile f ++ q := by
  induction t with
  | nil => exact absurd rfl h
  | cons c t ih =>
    cases hc : f c with
    | true =>
      simp only [List.dropWhile_cons, hc, if_true] at h
      obtain ⟨h1, h2⟩ := ih h
      simp [hc, h1, h2]
    | false => simp [hc]

theorem scanInt_append (h : scanInt p = some (n, r)) (hr : r ≠ []) (q : Text) :
    scanInt (p ++ q) = some (n, r ++ q) := by
  cases p with
  | nil => cases h
  | cons c t =>
    rw [List.cons_append, scanInt]
    rw [scanInt] at h
    by_cases hz : c = '0'
    · rw [if_pos hz] at h ⊢
      cases h
      rfl
    · rw [if_neg hz] at h ⊢
      by_cases hd : c.isDigit = true
      · rw [if_pos hd] at h ⊢
        cases h
        obtain ⟨h1, h2⟩ := takeWhile_append_of_ne_nil hr q
        rw [h1, h2]
      · rw [if_neg hd] at h
        cases h

theorem scanFrac_append (h : scanFrac p = (ds, r)) (hr : r ≠ []) (hp : ∀ u, r ≠ '.' :: u)
    (q : Text) : scanFrac (p ++ q) = (ds, r ++ q) := by
  unfold scanFrac at h
  split at h
  · rename_i t'
    split at h
    · cases h
      exact absurd rfl (hp t')
    · rename_i hne
      cases h
      obtain ⟨h1, h2⟩ := takeWhile_append_of_ne_nil hr q
      change scanFrac ('.' :: (t' ++ q)) = _
      simp only [scanFrac, h1, h2]
  · rename_i hne
    cases h
    cases p with
    | nil => exact absurd rfl hr
    | cons c t =>
      unfold scanFrac
      split
      · rename_i he
        have hc := (List.cons.inj he).1
        exact absurd (by rw [hc]) (hne t)
      · rfl

theorem scanSign_append (h : scanSign p = (sign, r)) (hp : p ≠ []) (q : Text) :
    scanSign (p ++ q) = (sign, r ++ q) := by
  cases p with
  | nil => exact absurd rfl hp
  | cons c t =>
    rw [List.cons_append, scanSign]
    rw [scanSign] at h
    by_cases hm : c = '-'
    · rw [if_pos hm] at h ⊢
      cases h
      rfl
    · rw [if_neg hm] at h ⊢
      by_cases hplus : c = '+'
      · rw [if_pos hplus] at h ⊢
        cases h
        rfl
      · rw [if_neg hplus] at h ⊢
        cases h
        rfl

theorem scanMinus_append (h : scanMinus p = (neg, r)) (hp : p ≠ []) (q : Text) :
    scanMinus (p ++ q) = (neg, r ++ q) := by
  cases p with
  | nil => exact absurd rfl hp
  | cons c t =>
    rw [List.cons_append, scanMinus]
    rw [scanMinus] at h
    by_cases hm : c = '-'
    · rw [if_pos hm] at h ⊢
      cases h
      rfl
    · rw [if_neg hm] at h ⊢
      cases h
      rfl

theorem scanExp_append (h : scanExp p = (e, r)) (hr : r ≠ [])
    (he : ∀ c u, r = c :: u → c ≠ 'e' ∧ c ≠ 'E') (q : Text) :
    scanExp (p ++ q) = (e, r ++ q) := by
  cases p with
  | nil =>
    cases h
    exact absurd rfl hr
  | cons c t =>
    rw [List.cons_append, scanExp]
    rw [scanExp] at h
    by_cases hc : c = 'e' ∨ c = 'E'
    · rw [if_pos hc] at h ⊢
      cases hs : scanSign t with
      | mk sign u =>
        rw [hs] at h
        dsimp only at h
        split at h
        · cases h
          obtain ⟨h1, h2⟩ := he c t rfl
          rcases hc with hc | hc
          · exact absurd hc h1
          · exact absurd hc h2
        · rename_i d ds htake
          cases h
          have ht : t ≠ [] := by
            intro hnil
            rw [hnil] at hs
            cases hs
            cases htake
          obtain ⟨h1, h2⟩ := takeWhile_append_of_ne_nil hr q
          rw [scanSign_append hs ht q]
          simp only [h1, h2, htake]
    · rw [if_neg hc] at h ⊢
      cases h
      rfl

theorem scanNumber_append (h : scanNumber p = some (l, r)) (hr : r ≠ []) (hends : Ends r)
    (q : Text) : scanNumber (p ++ q) = some (l, r ++ q) := by
  unfold scanNumber at h ⊢
  cases hm : scanMinus p with
  | mk neg u₁ =>
    rw [hm] at h
    dsimp only at h
    cases hi : scanInt u₁ with
    | none =>
      rw [hi] at h
      cases h
    | some x =>
      obtain ⟨n, u₂⟩ := x
      rw [hi] at h
      dsimp only at h
      cases hf : scanFrac u₂ with
      | mk frac u₃ =>
        rw [hf] at h
        dsimp only at h
        cases hx : scanExp u₃ with
        | mk exp u₄ =>
          rw [hx] at h
          cases h
          change u₄ ≠ [] at hr
          change Ends u₄ at hends
          have h₃ : u₃ ≠ [] := by
            intro hnil
            rw [hnil] at hx
            cases hx
            exact hr rfl
          have hpoint : ∀ u, u₃ ≠ '.' :: u := by
            intro u hu
            rw [hu] at hx
            cases hx
            exact hends.2.1 rfl
          have h₂ : u₂ ≠ [] := by
            intro hnil
            rw [hnil] at hf
            cases hf
            exact h₃ rfl
          have hp : p ≠ [] := by
            intro hnil
            rw [hnil] at hm
            cases hm
            cases hi
          have hend : ∀ c u, u₄ = c :: u → c ≠ 'e' ∧ c ≠ 'E' := by
            intro c u hu
            rw [hu] at hends
            exact ⟨hends.2.2.1, hends.2.2.2⟩
          simp only [scanMinus_append hm hp q, scanInt_append hi h₂ q,
            scanFrac_append hf h₃ hpoint q, scanExp_append hx hr hend q]

end Suprime
