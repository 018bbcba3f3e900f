/-!
# The range of doubles

A decimal is `mantissa * 10 ^ exponent`. Reading one as a double can leave the range of finite
doubles, and there are two ways of reading: rounding the exact value once, or rounding the leading
digits first and then their product with a power of ten. Near the end of the range the two disagree
in both directions. Both are decided here in exact arithmetic.
-/

namespace TypeRecovery

namespace Decimal

/-- The number of decimal digits of a natural number, one for zero. -/
def digitCount (n : Nat) : Nat := (Nat.toDigits 10 n).length

/-- The least magnitude that double precision rounds to infinity. -/
def overflowThreshold : Nat := Nat.pow 2 1024 - Nat.pow 2 970

/-- Whether a decimal rounds to a finite double. The exponent is compared with the number of digits
first, so that no power larger than the threshold is computed. -/
def roundsToFinite (mantissa : Nat) (exponent : Int) : Bool :=
  let magnitude := exponent + digitCount mantissa
  if mantissa = 0 ∨ magnitude < 309 then true
  else if 310 < magnitude then false
  else if 0 ≤ exponent then mantissa * Nat.pow 10 exponent.toNat < overflowThreshold
  else mantissa < overflowThreshold * Nat.pow 10 (-exponent).toNat

/-- The nearest number with at most 53 significant bits, of two the one whose last bit is even. -/
def roundToDouble (n : Nat) : Nat :=
  let unit := Nat.pow 2 (n.log2 + 1 - 53)
  let below := n / unit
  let rest := n % unit
  if 2 * rest < unit then below * unit
  else if unit < 2 * rest then (below + 1) * unit
  else (below + below % 2) * unit

/-- The longest run of leading digits that fits a word of 64 bits, and the number of digits after
it. Nineteen digits always fit and twenty-one never do. -/
def leadingDigits (n : Nat) : Nat × Nat :=
  let surplus := digitCount n - 20
  if n / Nat.pow 10 surplus < UInt64.size then (n / Nat.pow 10 surplus, surplus)
  else (n / Nat.pow 10 (surplus + 1), surplus + 1)

/-- Whether a decimal is read as a finite double when its leading digits are rounded first and then
their product with the rounded power of ten. There is no power of ten beyond `10 ^ 308`, and a
negative exponent cannot leave the range. -/
def scalesToFinite (mantissa : Nat) (exponent : Int) : Bool :=
  let (digits, surplus) := leadingDigits mantissa
  let power := exponent + surplus
  if digits = 0 ∨ power ≤ 0 then true
  else if 308 < power then false
  else roundToDouble digits * roundToDouble (Nat.pow 10 power.toNat) < overflowThreshold

end Decimal

end TypeRecovery
