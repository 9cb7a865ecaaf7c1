import Mathlib.Algebra.Order.Floor.Defs
import Mathlib.Data.Rat.Floor

/- The values of binary64 floating point, and the rounding of a rational number
   to one. A value is what its bits stand for: a rational number, an infinity
   or no number. Comparisons are those of IEEE 754, on any such value. -/

inductive Binary64 where
  | fin (q : ℚ)
  | inf (negative : Bool)
  | nan
  deriving DecidableEq, Repr

namespace Binary64

def ofBits (bits : BitVec 64) : Binary64 :=
  let exponent : Nat := bits.toNat / 2 ^ 52 % 2 ^ 11
  let fraction : Nat := bits.toNat % 2 ^ 52
  let negative : Bool := 2 ^ 63 ≤ bits.toNat
  let sign : ℚ := if negative then -1 else 1
  if exponent = 2 ^ 11 - 1 then
    if fraction = 0 then .inf negative else .nan
  else if exponent = 0 then .fin (sign * fraction / 2 ^ 1074)
  else .fin (sign * (2 ^ 52 + fraction) * 2 ^ exponent / 2 ^ 1075)

/-- The exponent `e` with `2 ^ e ≤ q < 2 ^ (e + 1)`, for a positive `q`. -/
def exponentOf (q : ℚ) : Int :=
  let e : Int := (q.num.natAbs.log2 : Int) - (q.den.log2 : Int)
  if (2 : ℚ) ^ e ≤ q then e else e - 1

/-- The nearest integer, ties to even. -/
def roundEven (q : ℚ) : Int :=
  let n := q.num / q.den
  let rest := q - n
  if 1 / 2 < rest ∨ rest = 1 / 2 ∧ n % 2 = 1 then n + 1 else n

/-- The nearest value, with 53 significant bits and no bit below `2 ^ (-1074)`. -/
def ofRat (q : ℚ) : Binary64 :=
  if q = 0 then .fin 0
  else
    let unit : ℚ := 2 ^ max (exponentOf |q| - 52) (-1074)
    let magnitude : ℚ := roundEven (|q| / unit) * unit
    if 2 ^ 1024 ≤ magnitude then .inf (q < 0)
    else .fin (if q < 0 then -magnitude else magnitude)

def lt : Binary64 → Binary64 → Bool
  | .fin a, .fin b => a < b
  | .fin _, .inf negative => !negative
  | .inf negative, .fin _ => negative
  | .inf a, .inf b => a && !b
  | _, _ => false

/-- Equality of values; `nan` equals nothing. -/
def eq : Binary64 → Binary64 → Bool
  | .fin a, .fin b => a == b
  | .inf a, .inf b => a == b
  | _, _ => false

def le (a b : Binary64) : Bool := lt a b || eq a b

theorem eq_trans {x y z : Binary64} (h : x.eq y = true) (h' : y.eq z = true) : x.eq z = true := by
  cases x <;> cases y <;> cases z <;> simp_all [eq]

end Binary64
