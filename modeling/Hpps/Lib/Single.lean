import Mathlib.Algebra.Order.Floor.Ring
import Mathlib.Data.Rat.Floor

/-! Arithmetic with 24 significant bits, rounded to nearest as a `float` is. The exponent has no bounds. -/
namespace Hpps

/-- The nearest integer, and the even one of two. -/
def roundEven (x : ℚ) : ℤ :=
  let n := ⌊x⌋
  if x - n < 1 / 2 then n
  else if 1 / 2 < x - n then n + 1
  else n + n % 2

/-- The `e` with `2 ^ e ≤ |x| < 2 ^ (e + 1)`, if `x` is not zero. -/
def exponent (x : ℚ) : ℤ :=
  let e : ℤ := x.num.natAbs.log2 - x.den.log2
  if |x| < (2 : ℚ) ^ e then e - 1 else e

/-- The nearest number of 24 bits. -/
def roundSingle (x : ℚ) : ℚ :=
  let ulp := (2 : ℚ) ^ (exponent x - 23)
  roundEven (x / ulp) * ulp

/-- A number as the operations below leave it. -/
structure Single where
  val : ℚ
  deriving DecidableEq

namespace Single

instance : Zero Single := ⟨⟨0⟩⟩

instance : Add Single := ⟨fun x y => ⟨roundSingle (x.val + y.val)⟩⟩

instance : Div Single := ⟨fun x y => ⟨roundSingle (x.val / y.val)⟩⟩

instance : NatCast Single := ⟨fun n => ⟨roundSingle n⟩⟩

end Single
end Hpps
