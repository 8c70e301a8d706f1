import Mathlib.Data.Int.Log
import Mathlib.Data.Rat.Floor
import Mathlib.Order.WithBot
import Suprime.PyOperations

namespace Suprime
set_option autoImplicit true

/-- The nearest integer, and the even one of two that are equally near. -/
def roundHalfEven (q : ℚ) : ℤ :=
  if Int.fract q < 1 / 2 ∨ Int.fract q = 1 / 2 ∧ Even ⌊q⌋ then ⌊q⌋ else ⌊q⌋ + 1

/-- The distance of neighbouring doubles at `q`, whose mantissas have 53 bits. -/
def ulp (q : ℚ) : ℚ := 2 ^ max (-1074) (Int.log 2 |q| - 52)

/-- The double that an operation with the exact result `q` returns. -/
def roundDouble (q : ℚ) : PyNum :=
  let r := ulp q * roundHalfEven (q / ulp q)
  if 2 ^ 1024 ≤ |r| then .inf (q < 0) else .rat r

example : roundDouble (1 / 5) = .rat (3602879701896397 / 18014398509481984) := by decide +kernel

theorem roundHalfEven_nonneg {q : ℚ} (h : 0 ≤ q) : 0 ≤ roundHalfEven q := by
  have hfloor : 0 ≤ ⌊q⌋ := Int.floor_nonneg.2 h
  unfold roundHalfEven
  split <;> omega

theorem ulp_pos (q : ℚ) : 0 < ulp q := zpow_pos two_pos _

namespace PyNum

def neg : PyNum → PyNum
  | .nan => .nan
  | .inf neg => .inf !neg
  | .rat q => .rat (-q)

def add : PyNum → PyNum → PyNum
  | .nan, _ => .nan
  | _, .nan => .nan
  | .inf neg, .inf neg' => if neg = neg' then .inf neg else .nan
  | .inf neg, .rat _ => .inf neg
  | .rat _, .inf neg => .inf neg
  | .rat p, .rat q => roundDouble (p + q)

def sub (a b : PyNum) : PyNum := a.add b.neg

def mul : PyNum → PyNum → PyNum
  | .nan, _ => .nan
  | _, .nan => .nan
  | .inf neg, .inf neg' => .inf (neg ^^ neg')
  | .inf neg, .rat q => if q = 0 then .nan else .inf (neg ^^ decide (q < 0))
  | .rat q, .inf neg => if q = 0 then .nan else .inf (neg ^^ decide (q < 0))
  | .rat p, .rat q => roundDouble (p * q)

/-- `a >= b` -/
def ge (a b : PyNum) : Bool := a.gt b || (decide (a = b) && decide (a ≠ .nan))

/-- `max(a, b)` -/
def max (a b : PyNum) : PyNum := if b.gt a then b else a

/-- `min(a, b)` -/
def min (a b : PyNum) : PyNum := if a.gt b then b else a

def NonNeg : PyNum → Prop
  | .nan => False
  | .inf neg => neg = false
  | .rat q => 0 ≤ q

/-- Where a number that is not negative stands in the order. -/
def rank : PyNum → WithTop ℚ
  | .rat q => q
  | _ => ⊤

theorem gt_iff_rank_lt {a b : PyNum} (ha : a.NonNeg) (hb : b.NonNeg) :
    a.gt b = true ↔ b.rank < a.rank := by
  cases a with
  | nan => cases ha
  | inf neg =>
    subst ha
    cases b with
    | nan => cases hb
    | inf neg =>
      subst hb
      simp [gt, rank]
    | rat q => simp [gt, rank]
  | rat p =>
    cases b with
    | nan => cases hb
    | inf neg =>
      subst hb
      simp [gt, rank]
    | rat q => simp [gt, rank]

theorem nonNeg_max_zero (a : PyNum) : (max (.rat 0) a).NonNeg := by
  unfold max
  split
  · rename_i h
    cases a with
    | nan => cases h
    | inf neg => cases neg <;> first | rfl | cases h
    | rat q => exact (of_decide_eq_true h).le
  · exact le_rfl

theorem nonNeg_roundDouble {q : ℚ} (h : 0 ≤ q) : (roundDouble q).NonNeg := by
  unfold roundDouble
  dsimp only
  split
  · exact decide_eq_false (not_lt.2 h)
  · apply mul_nonneg (ulp_pos q).le
    exact_mod_cast roundHalfEven_nonneg (div_nonneg h (ulp_pos q).le)

theorem NonNeg.add {a b : PyNum} (ha : a.NonNeg) (hb : b.NonNeg) : (a.add b).NonNeg := by
  cases a with
  | nan => cases ha
  | inf neg =>
    subst ha
    cases b with
    | nan => cases hb
    | inf neg =>
      subst hb
      rfl
    | rat q => rfl
  | rat p =>
    cases b with
    | nan => cases hb
    | inf neg =>
      subst hb
      rfl
    | rat q => exact nonNeg_roundDouble (add_nonneg ha hb)

end PyNum

end Suprime
