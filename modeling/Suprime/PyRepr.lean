import Suprime.JsonRoundTrip

namespace Suprime
set_option autoImplicit true

/-- `str.isprintable` for the characters beyond ASCII, of which surrogates are not printable. -/
class UnicodeData where
  printable : CodePoint → Bool
  high : ∀ c, isHigh c = true → printable c = false
  low : ∀ c, isLow c = true → printable c = false

def hexDigits : ℕ → ℕ → Text
  | 0, _ => []
  | k + 1, n => hexDigits k (n / 16) ++ [Nat.digitChar (n % 16)]

section
variable [UnicodeData]

/-- A character in the `repr` of a string that is written with the quote `q`. -/
def reprChar (q : Char) (c : CodePoint) : Text :=
  if c.val = q.toNat ∨ c.val = 92 then ['\\', Char.ofNat c.val]
  else if c.val = 9 then ['\\', 't']
  else if c.val = 10 then ['\\', 'n']
  else if c.val = 13 then ['\\', 'r']
  else if 32 ≤ c.val ∧ c.val < 127 then [Char.ofNat c.val]
  else if 127 < c.val ∧ UnicodeData.printable c = true then [Char.ofNat c.val]
  else if c.val < 256 then '\\' :: 'x' :: hexDigits 2 c.val
  else if c.val < 65536 then '\\' :: 'u' :: hexDigits 4 c.val
  else '\\' :: 'U' :: hexDigits 8 c.val

/-- Single quotes, unless the string has some of these and no double quotes. -/
def quoteOf (s : PyStr) : Char := if 39 ∈ s ∧ 34 ∉ s then '"' else '\x27'

def reprStr (s : PyStr) : Text := quoteOf s :: (s.flatMap (reprChar (quoteOf s)) ++ [quoteOf s])

variable [FiniteFloat F]

def reprFloat : PyFloat F → Text
  | .finite f => (FiniteFloat.lit f).text
  | .inf false => ['i', 'n', 'f']
  | .inf true => ['-', 'i', 'n', 'f']
  | .nan => ['n', 'a', 'n']

/-- `repr` of the values that can be keys. -/
def reprKey : PyKey F → Text
  | .none => ['N', 'o', 'n', 'e']
  | .bool true => ['T', 'r', 'u', 'e']
  | .bool false => ['F', 'a', 'l', 's', 'e']
  | .int i => (NumberLit.ofInt i).text
  | .float f => reprFloat f
  | .str s => reprStr s

mutual

/-- `repr`, without the limits of the interpreter, as in `dumps`. -/
def repr : PyValue F → Text
  | .none => reprKey (.none : PyKey F)
  | .bool b => reprKey (.bool b : PyKey F)
  | .int i => reprKey (.int i : PyKey F)
  | .float f => reprKey (.float f)
  | .str s => reprKey (.str s : PyKey F)
  | .list [] => ['[', ']']
  | .list (v :: l) => '[' :: (repr v ++ reprRest ']' l)
  | .tuple [] => ['(', ')']
  | .tuple [v] => '(' :: (repr v ++ [',', ')'])
  | .tuple (v :: w :: l) => '(' :: (repr v ++ ',' :: ' ' :: (repr w ++ reprRest ')' l))
  | .dict [] => ['\x7b', '\x7d']
  | .dict ((k, v) :: l) => '\x7b' :: (reprKey k ++ ':' :: ' ' :: (repr v ++ reprItemsRest l))

/-- The elements of a list or tuple after the first, and its end. -/
def reprRest (close : Char) : List (PyValue F) → Text
  | [] => [close]
  | v :: l => ',' :: ' ' :: (repr v ++ reprRest close l)

def reprItemsRest : List (PyKey F × PyValue F) → Text
  | [] => ['\x7d']
  | (k, v) :: l => ',' :: ' ' :: (reprKey k ++ ':' :: ' ' :: (repr v ++ reprItemsRest l))

end

example : repr (.list [.none, .bool true] : PyValue F) = "[None, True]".toList := by
  simp only [repr, reprRest, reprKey]
  decide

/-- The number that hexadecimal digits stand for. -/
def hexNat (t : Text) : ℕ := t.foldl (fun n c => n * 16 + (hexVal c).getD 0) 0

section
omit [UnicodeData]

theorem length_hexDigits (k n : ℕ) : (hexDigits k n).length = k := by
  induction k generalizing n with
  | zero => rfl
  | succ k ih => rw [hexDigits, List.length_append, ih, List.length_singleton]

theorem hexNat_hexDigits {k n : ℕ} (h : n < 16 ^ k) : hexNat (hexDigits k n) = n := by
  induction k generalizing n with
  | zero =>
    rw [pow_zero] at h
    simp only [hexDigits, hexNat, List.foldl_nil]
    omega
  | succ k ih =>
    have hdiv : n / 16 < 16 ^ k := by
      rw [pow_succ] at h
      omega
    have hdigit := hexVal_digitChar (n % 16) (Nat.mod_lt _ (by decide))
    have hfold := ih hdiv
    rw [hexNat] at hfold
    rw [hexDigits, hexNat, List.foldl_append, hfold, List.foldl_cons, List.foldl_nil, hdigit,
      Option.getD_some]
    omega

end

def unreprHex (k : ℕ) (t : Text) : CodePoint × Text := (Fin.ofNat _ (hexNat (t.take k)), t.drop k)

/-- Reads what `reprChar` writes. -/
def unreprChar : Text → Option (CodePoint × Text)
  | [] => none
  | [c] => some (pyChar c, [])
  | c :: e :: t =>
    if c ≠ '\\' then some (pyChar c, e :: t)
    else if e = 't' then some (9, t)
    else if e = 'n' then some (10, t)
    else if e = 'r' then some (13, t)
    else if e = 'x' then some (unreprHex 2 t)
    else if e = 'u' then some (unreprHex 4 t)
    else if e = 'U' then some (unreprHex 8 t)
    else some (pyChar e, t)

section
omit [UnicodeData]

theorem unreprHex_hexDigits {k : ℕ} {c : CodePoint} (h : c.val < 16 ^ k) (t : Text) :
    unreprHex k (hexDigits k c.val ++ t) = (c, t) := by
  have hlen := length_hexDigits k c.val
  rw [unreprHex, List.take_left' hlen, List.drop_left' hlen, hexNat_hexDigits h,
    Fin.ofNat_val_eq_self]

end

omit [UnicodeData] in
theorem toNat_ofNat_of_valid {n : ℕ} (h : n.isValidChar) : (Char.ofNat n).toNat = n := by
  rw [Char.ofNat, dif_pos h]
  exact UInt32.toNat_ofNatLT ..

omit [UnicodeData] in
theorem pyChar_ofNat {c : CodePoint} (h : c.val.isValidChar) : pyChar (Char.ofNat c.val) = c := by
  rw [pyChar, toNat_ofNat_of_valid h, Fin.ofNat_val_eq_self]

section
omit [UnicodeData]

theorem valid_of_ascii {c : CodePoint} (h : c.val < 127) : c.val.isValidChar := by
  left
  omega

end

theorem valid_of_printable {c : CodePoint} (h : UnicodeData.printable c = true) :
    c.val.isValidChar := by
  have hlt := c.isLt
  have hhigh : isHigh c ≠ true := fun hc => by
    rw [UnicodeData.high c hc] at h
    cases h
  have hlow : isLow c ≠ true := fun hc => by
    rw [UnicodeData.low c hc] at h
    cases h
  simp only [isHigh, isLow, ne_eq, Bool.and_eq_true, decide_eq_true_eq] at hhigh hlow
  rw [Nat.isValidChar]
  omega

section
omit [UnicodeData]

theorem ofNat_ne {c : CodePoint} {d : Char} (hv : c.val.isValidChar) (h : c.val ≠ d.toNat) :
    Char.ofNat c.val ≠ d := by
  intro he
  rw [← he, toNat_ofNat_of_valid hv] at h
  exact h rfl

theorem unreprChar_plain {c : CodePoint} (hv : c.val.isValidChar) (h : c.val ≠ 92) (t : Text) :
    unreprChar (Char.ofNat c.val :: t) = some (c, t) := by
  have hne : Char.ofNat c.val ≠ '\\' := ofNat_ne hv h
  cases t with
  | nil => rw [unreprChar, pyChar_ofNat hv]
  | cons e t => rw [unreprChar, if_pos hne, pyChar_ofNat hv]

end

def IsQuote (q : Char) : Prop := q = '\x27' ∨ q = '"'

section
omit [UnicodeData]

theorem quoteOf_isQuote (s : PyStr) : IsQuote (quoteOf s) := by
  unfold quoteOf
  split
  · exact .inr rfl
  · exact .inl rfl

theorem unreprChar_escaped {e : Char} (h : IsQuote e ∨ e = '\\') (t : Text) :
    unreprChar ('\\' :: e :: t) = some (pyChar e, t) := by
  rcases h with (rfl | rfl) | rfl <;> rfl

end

theorem unreprChar_reprChar {q : Char} (hq : IsQuote q) (c : CodePoint) (t : Text) :
    unreprChar (reprChar q c ++ t) = some (c, t) := by
  unfold reprChar
  by_cases h₁ : c.val = q.toNat ∨ c.val = 92
  · have hlt : c.val < 127 := by
      rcases h₁ with h | h
      · rcases hq with rfl | rfl
        · rw [h]; decide
        · rw [h]; decide
      · omega
    have he : IsQuote (Char.ofNat c.val) ∨ Char.ofNat c.val = '\\' := by
      rcases h₁ with h | h
      · rw [h, Char.ofNat_toNat]
        exact .inl hq
      · rw [h]
        exact .inr rfl
    rw [if_pos h₁, List.cons_append, List.singleton_append, unreprChar_escaped he,
      pyChar_ofNat (valid_of_ascii hlt)]
  rw [if_neg h₁]
  have h92 : c.val ≠ 92 := fun h => h₁ (.inr h)
  by_cases h₂ : c.val = 9
  · rw [if_pos h₂]
    exact congrArg (fun x => some (x, t)) (Fin.ext h₂.symm)
  rw [if_neg h₂]
  by_cases h₃ : c.val = 10
  · rw [if_pos h₃]
    exact congrArg (fun x => some (x, t)) (Fin.ext h₃.symm)
  rw [if_neg h₃]
  by_cases h₄ : c.val = 13
  · rw [if_pos h₄]
    exact congrArg (fun x => some (x, t)) (Fin.ext h₄.symm)
  rw [if_neg h₄]
  by_cases h₅ : 32 ≤ c.val ∧ c.val < 127
  · rw [if_pos h₅]
    exact unreprChar_plain (valid_of_ascii h₅.2) h92 t
  rw [if_neg h₅]
  by_cases h₆ : 127 < c.val ∧ UnicodeData.printable c = true
  · rw [if_pos h₆]
    exact unreprChar_plain (valid_of_printable h₆.2) h92 t
  rw [if_neg h₆]
  by_cases h₇ : c.val < 256
  · rw [if_pos h₇]
    exact congrArg some (unreprHex_hexDigits h₇ t)
  rw [if_neg h₇]
  by_cases h₈ : c.val < 65536
  · rw [if_pos h₈]
    exact congrArg some (unreprHex_hexDigits h₈ t)
  rw [if_neg h₈]
  have hlt := c.isLt
  exact congrArg some (unreprHex_hexDigits (show c.val < 16 ^ 8 by omega) t)

end

end Suprime
