import Suprime.Dict
import Suprime.NumberLit

namespace Suprime
set_option autoImplicit true

/-- A code point of a Python string, in which surrogates may stand alone. -/
abbrev CodePoint := Fin 1114112

instance neZero_codePoints : NeZero 1114112 := ⟨by decide⟩

abbrev PyStr := List CodePoint

def pyChar (c : Char) : CodePoint := Fin.ofNat _ c.toNat

def pyStr (t : Text) : PyStr := t.map pyChar

theorem pyChar_injective : Function.Injective pyChar := by
  intro c d h
  have hlt : ∀ c : Char, c.toNat < 1114112 := by
    intro c
    have hvalid : c.toNat.isValidChar := c.valid
    unfold Nat.isValidChar at hvalid
    omega
  have hval := congrArg Fin.val h
  simp only [pyChar, Fin.ofNat, Nat.mod_eq_of_lt (hlt _)] at hval
  apply Char.ext
  exact UInt32.toNat_inj.1 hval

theorem toDigits_injective : Function.Injective (Nat.toDigits 10) := by
  intro a b h
  rw [← Nat.ofDigitChars_toDigits (by decide) (le_refl 10) (n := a), h,
    Nat.ofDigitChars_toDigits (by decide) le_rfl]

def isHigh (c : CodePoint) : Bool := 55296 ≤ c.val && c.val ≤ 56319

def isLow (c : CodePoint) : Bool := 56320 ≤ c.val && c.val ≤ 57343

inductive PyFloat (F : Type)
  | finite (f : F)
  | inf (neg : Bool)
  | nan
  deriving DecidableEq

/-- Finite floats with their `repr`, which `float` reads back. -/
class FiniteFloat (F : Type) where
  lit : F → NumberLit
  ofLit : NumberLit → PyFloat F
  ofLit_lit : ∀ f, ofLit (lit f) = .finite f
  lit_isFloat : ∀ f, (lit f).isInt = false

/-- The floats that are whole numbers and not negative, as far as they are written without an
exponent. -/
instance : FiniteFloat ℕ where
  lit n := ⟨false, n, [0], none⟩
  ofLit l := .finite l.int
  ofLit_lit _ := rfl
  lit_isFloat _ := rfl

/-- The keys that `json.dumps` accepts in a dict. -/
inductive PyKey (F : Type)
  | none
  | bool (b : Bool)
  | int (i : ℤ)
  | float (f : PyFloat F)
  | str (s : PyStr)
  deriving DecidableEq

/-- The values that `json.dumps` accepts. A dict is the list of its pairs in insertion order. -/
inductive PyValue (F : Type)
  | none
  | bool (b : Bool)
  | int (i : ℤ)
  | float (f : PyFloat F)
  | str (s : PyStr)
  | list (l : List (PyValue F))
  | tuple (l : List (PyValue F))
  | dict (l : List (PyKey F × PyValue F))

def PyKey.toValue : PyKey F → PyValue F
  | .none => .none
  | .bool b => .bool b
  | .int i => .int i
  | .float f => .float f
  | .str s => .str s

/-- `bool(v)`. -/
def truthy [FiniteFloat F] : PyValue F → Bool
  | .none => false
  | .bool b => b
  | .int i => i ≠ 0
  | .float (.finite f) => (FiniteFloat.lit f).int ≠ 0 || (FiniteFloat.lit f).frac.any (· ≠ 0)
  | .float _ => true
  | .str s => !s.isEmpty
  | .list l => !l.isEmpty
  | .tuple l => !l.isEmpty
  | .dict l => !l.isEmpty

/-- `dict(pairs)`: a later pair replaces the value of an equal key where that key stands. -/
def ofPairs [DecidableEq κ] (l : List (κ × α)) : List (κ × α) :=
  l.foldl (fun d p => assocSet p.1 p.2 d) []

theorem ofPairs_concat [DecidableEq κ] (l : List (κ × α)) (p : κ × α) :
    ofPairs (l ++ [p]) = assocSet p.1 p.2 (ofPairs l) := by
  simp [ofPairs]

theorem ofPairs_eq_self [DecidableEq κ] {l : List (κ × α)} (h : (l.map Prod.fst).Nodup) :
    ofPairs l = l := by
  induction l using List.reverseRecOn with
  | nil => rfl
  | append_singleton l p ih =>
    rw [List.map_append] at h
    obtain ⟨hl, _, hd⟩ := List.nodup_append.1 h
    rw [ofPairs_concat, ih hl]
    apply assocSet_of_not_mem
    intro hp
    exact hd p.1 hp p.1 List.mem_cons_self rfl

theorem nodup_ofPairs [DecidableEq κ] (l : List (κ × α)) : ((ofPairs l).map Prod.fst).Nodup := by
  induction l using List.reverseRecOn with
  | nil => exact List.nodup_nil
  | append_singleton l p ih =>
    rw [ofPairs_concat]
    exact nodup_assocSet ih

end Suprime
