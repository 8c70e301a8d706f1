import Mathlib.Algebra.Order.Ring.Rat
import Suprime.Persistence
import Suprime.SecureTransport

namespace Suprime
set_option autoImplicit true

/-- The number that a bool, an int or a float is. -/
inductive PyNum
  | nan
  | inf (neg : Bool)
  | rat (q : ℚ)
  deriving DecidableEq

namespace PyNum

def gt : PyNum → PyNum → Bool
  | .nan, _ => false
  | _, .nan => false
  | .inf neg, .inf neg' => !neg && neg'
  | .inf neg, .rat _ => !neg
  | .rat _, .inf neg => neg
  | .rat p, .rat q => decide (q < p)

theorem gt_self (a : PyNum) : a.gt a = false := by
  cases a with
  | nan => rfl
  | inf neg => cases neg <;> rfl
  | rat q => exact decide_eq_false (lt_irrefl q)

theorem gt_of_not_gt {a b : PyNum} (ha : a ≠ .nan) (hb : b ≠ .nan) (hne : a ≠ b)
    (h : a.gt b = false) : b.gt a = true := by
  cases a with
  | nan => exact absurd rfl ha
  | inf neg =>
    cases b with
    | nan => exact absurd rfl hb
    | inf neg' => cases neg <;> cases neg' <;> first | rfl | exact absurd rfl hne | cases h
    | rat q =>
      cases neg with
      | false => cases h
      | true => rfl
  | rat p =>
    cases b with
    | nan => exact absurd rfl hb
    | inf neg =>
      cases neg with
      | false => rfl
      | true => cases h
    | rat q =>
      apply decide_eq_true
      have hle : p ≤ q := not_lt.1 (of_decide_eq_false h)
      exact lt_of_le_of_ne hle (fun he => hne (congrArg PyNum.rat he))

end PyNum

section
variable {F : Type} [RationalFloat F] [DecidableEq F]

def PyValue.toNum : PyValue F → Option PyNum
  | .bool b => some (.rat (if b then 1 else 0))
  | .int i => some (.rat i)
  | .float (.finite f) => some (.rat (RationalFloat.toRat f))
  | .float (.inf neg) => some (.inf neg)
  | .float .nan => some .nan
  | _ => .none

def dictLookup (k : PyKey F) (l : List (PyKey F × PyValue F)) : Option (PyValue F) :=
  (l.find? (fun p => p.1.number = k.number)).map Prod.snd

mutual

/-- Whether two items of a container are one object or equal. The NaN of JSON is one object. -/
def pySame : PyValue F → PyValue F → Bool
  | .none, .none => true
  | .str s, .str t => s = t
  | .list l, .list m => itemsSame l m
  | .tuple l, .tuple m => itemsSame l m
  | .dict l, .dict m => l.length = m.length && pairsSame l m
  | v, w =>
    match v.toNum, w.toNum with
    | some a, some b => a = b
    | _, _ => false

def itemsSame : List (PyValue F) → List (PyValue F) → Bool
  | [], [] => true
  | v :: l, w :: m => pySame v w && itemsSame l m
  | _, _ => false

def pairsSame : List (PyKey F × PyValue F) → List (PyKey F × PyValue F) → Bool
  | [], _ => true
  | (k, v) :: l, m =>
    (match dictLookup k m with
      | some w => pySame v w
      | none => false) && pairsSame l m

end

mutual

/-- `v > w`; `none` stands for `TypeError`. -/
def pyGt : PyValue F → PyValue F → Option Bool
  | .str s, .str t => some (decide (t < s))
  | .list l, .list m => itemsGt l m
  | .tuple l, .tuple m => itemsGt l m
  | v, w =>
    match v.toNum, w.toNum with
    | some a, some b => some (a.gt b)
    | _, _ => none

/-- The first items that differ decide. -/
def itemsGt : List (PyValue F) → List (PyValue F) → Option Bool
  | [], _ => some false
  | _ :: _, [] => some true
  | v :: l, w :: m => if pySame v w then itemsGt l m else pyGt v w

end

theorem pySame_of_toNum {v w : PyValue F} (hv : v.toNum = some a) (hw : w.toNum = some b) :
    pySame v w = decide (a = b) := by
  cases v <;> cases w <;> first | (cases hv; done) | (cases hw; done) | simp only [pySame, hv, hw]

theorem pyGt_of_toNum {v w : PyValue F} (hv : v.toNum = some a) (hw : w.toNum = some b) :
    pyGt v w = some (a.gt b) := by
  cases v <;> cases w <;> first | (cases hv; done) | (cases hw; done) | simp only [pyGt, hv, hw]

theorem pySame_of_toNum_none {v w : PyValue F} (hv : v.toNum = some a) (hw : w.toNum = none) :
    pySame v w = false := by
  cases v <;> cases w <;> first | (cases hv; done) | simp only [pySame, hv, hw]

theorem pyGt_of_toNum_none {v w : PyValue F} (hv : v.toNum = some a) (hw : w.toNum = none) :
    pyGt v w = none := by
  cases v <;> cases w <;> first | (cases hv; done) | simp only [pyGt, hv, hw]

theorem pySame_of_none_toNum {v w : PyValue F} (hv : v.toNum = none) (hw : w.toNum = some b) :
    pySame v w = false := by
  cases v <;> cases w <;> first | (cases hw; done) | simp only [pySame, hv]

theorem pyGt_of_none_toNum {v w : PyValue F} (hv : v.toNum = none) (hw : w.toNum = some b) :
    pyGt v w = none := by
  cases v <;> cases w <;> first | (cases hw; done) | simp only [pyGt, hv]

mutual

theorem pyGt_self : (v : PyValue F) → pyGt v v ≠ some true
  | .none => fun h => by cases h
  | .bool b => by
    rw [pyGt_of_toNum rfl rfl, PyNum.gt_self]
    exact fun h => by cases h
  | .int i => by
    rw [pyGt_of_toNum rfl rfl, PyNum.gt_self]
    exact fun h => by cases h
  | .float (.finite f) => by
    rw [pyGt_of_toNum rfl rfl, PyNum.gt_self]
    exact fun h => by cases h
  | .float (.inf neg) => by
    rw [pyGt_of_toNum rfl rfl, PyNum.gt_self]
    exact fun h => by cases h
  | .float .nan => fun h => by cases h
  | .str s => by
    rw [pyGt, decide_eq_false (lt_irrefl s)]
    exact fun h => by cases h
  | .list l => by
    rw [pyGt]
    exact itemsGt_self l
  | .tuple l => by
    rw [pyGt]
    exact itemsGt_self l
  | .dict l => fun h => by cases h

theorem itemsGt_self : (l : List (PyValue F)) → itemsGt l l ≠ some true
  | [] => fun h => by cases h
  | v :: l => by
    rw [itemsGt]
    split
    · exact itemsGt_self l
    · exact pyGt_self v

end

end

/-- The decimal digits of Unicode with their values. -/
class UnicodeDigits where
  decimal : CodePoint → Option ℕ

section
variable [UnicodeDigits]

/-- The characters that `int` passes over around a number. The separators U+001C to U+001F, which
`str.strip` removes as well, are not among them. -/
def isIntSpace (c : CodePoint) : Bool :=
  isSpace (Char.ofNat c.val) && !(28 ≤ c.val && c.val ≤ 31)

def stripSpace (s : PyStr) : PyStr := (s.dropWhile isIntSpace).rdropWhile isIntSpace

/-- Digits, with single underscores between them. -/
def decimalRun : PyStr → Option (List ℕ)
  | [] => none
  | [c] => (UnicodeDigits.decimal c).map (fun n => [n])
  | c :: d :: t =>
    (UnicodeDigits.decimal c).bind (fun n =>
      (if d.val = 95 then decimalRun t else decimalRun (d :: t)).map (fun l => n :: l))

/-- An int without its sign. More than 4300 digits are refused. -/
def intDigits (s : PyStr) : Option ℕ :=
  (decimalRun s).bind (fun l =>
    if l.length ≤ 4300 then some (l.foldl (fun n d => 10 * n + d) 0) else none)

/-- `int(s)` of a string. -/
def intText (s : PyStr) : Option ℤ :=
  match stripSpace s with
  | [] => none
  | c :: t =>
    if c.val = 45 then (intDigits t).map (fun n => -(n : ℤ))
    else if c.val = 43 then (intDigits t).map (fun n => (n : ℤ))
    else (intDigits (c :: t)).map (fun n => (n : ℤ))

variable {F : Type} [RationalFloat F]

/-- `int(v)`; `none` stands for an exception. -/
def pyInt : PyValue F → Option ℤ
  | .bool b => some (if b then 1 else 0)
  | .int i => some i
  | .float (.finite f) =>
    some ((RationalFloat.toRat f).num.tdiv (RationalFloat.toRat f).den)
  | .str s => intText s
  | _ => none

end

section
variable {F : Type} [UnicodeData] [FiniteFloat F] [RationalFloat F] [DecidableEq F]

/-- `str(v)` -/
def pyText : PyValue F → PyStr
  | .str s => s
  | v => pyStr (repr v)

/-- `d[name]`; `none` stands for an exception. -/
def getItem (name : PyStr) : PyValue F → Option (PyValue F)
  | .dict l => l.lookup (.str name)
  | _ => none

/-- `iter(v)`: the characters of a string and the keys of a dict. -/
def pyIter : PyValue F → Option (List (PyValue F))
  | .list l => some l
  | .tuple l => some l
  | .str s => some (s.map (fun c => .str [c]))
  | .dict l => some ((dictFrom l).map (fun p => p.1.toValue))
  | _ => none

/-- `d.items()`. A dict has every key once. -/
def dictItems : PyValue F → Option (List (PyKey F × PyValue F))
  | .dict l => some (dictFrom l)
  | _ => none

end

end Suprime
