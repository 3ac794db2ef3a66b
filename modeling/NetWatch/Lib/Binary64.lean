import Mathlib.Data.Rat.Floor

namespace NetWatch.Lib.Binary64

def pow2 (e : ℤ) : ℚ := if 0 ≤ e then (2 ^ e.toNat : Nat) else 1 / (2 ^ (-e).toNat : Nat)

def roundHalfEven (q : ℚ) : ℤ :=
  if q - q.floor < 1 / 2 then q.floor
  else if 1 / 2 < q - q.floor then q.floor + 1
  else if q.floor % 2 = 0 then q.floor
  else q.floor + 1

def exponent (q : ℚ) : ℤ :=
  let e : ℤ := (Nat.log2 q.num.natAbs : ℤ) - Nat.log2 q.den
  if pow2 e ≤ |q| then e else e - 1

/-- The nearest number with a significand of 53 bits, ties to the even one. The
exponent is unbounded, so this is binary64 away from its subnormal numbers and
its largest number. -/
def round (q : ℚ) : ℚ :=
  if q = 0 then 0
  else roundHalfEven (q / pow2 (exponent q - 52)) * pow2 (exponent q - 52)

def mul (a b : ℚ) : ℚ := round (a * b)

def div (a b : ℚ) : ℚ := round (a / b)

def add (a b : ℚ) : ℚ := round (a + b)

@[simp] theorem round_zero : round 0 = 0 := if_pos rfl

@[simp] theorem zero_mul (a : ℚ) : mul 0 a = 0 := by simp [mul]

@[simp] theorem zero_div (a : ℚ) : div 0 a = 0 := by simp [div]

/-- A number with `d` digits after the point, as `{:.d}` prints it. -/
def toFixed (d : Nat) (q : ℚ) : String :=
  let n := (roundHalfEven (|q| * 10 ^ d)).toNat
  let frac := toString (n % 10 ^ d)
  let sign := if q < 0 then "-" else ""
  sign ++ toString (n / 10 ^ d) ++ "." ++ String.ofList (List.replicate (d - frac.length) '0') ++ frac

example : round (1 / 10) = 3602879701896397 / 36028797018963968 := by decide +kernel

example : toFixed 3 (round (1 / 8 + 12)) = "12.125" := by decide +kernel

end NetWatch.Lib.Binary64
