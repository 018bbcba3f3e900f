import TypeRecovery.Json.Basic

/-!
# Shortest decimals

The decimal with the fewest digits that reads back as a given double. A finite double is
`mantissa * 2 ^ exponent`; the reals that round to it form an interval, and the widest decimal grid
with a point in that interval gives the decimal. Of two such points the nearer one is taken.
-/

namespace TypeRecovery

/-- A finite, positive double taken apart. -/
structure Binary where
  /-- The significant bits. -/
  mantissa : Nat
  /-- The power of two. -/
  exponent : Int
  /-- Whether the next smaller double is only half a step away. -/
  narrowBelow : Bool
  deriving DecidableEq, Repr

namespace Binary

/-- The parts of the double with given bits, apart from its sign. -/
def ofBits (bits : UInt64) : Binary :=
  let fraction := (bits &&& 0xfffffffffffff).toNat
  let biased := ((bits >>> 52) &&& 0x7ff).toNat
  if biased = 0 then ⟨fraction, -1074, false⟩
  else ⟨fraction + 0x10000000000000, (biased : Int) - 1075, fraction = 0 && 1 < biased⟩

/-- The factors that bring quarters of a binary step and points of the grid `10 ^ k` to one unit:
a quarter step is the first factor, and a grid step the second. -/
def scales (b : Binary) (k : Int) : Nat × Nat :=
  (Nat.pow 2 (b.exponent - 2).toNat * Nat.pow 10 (-k).toNat,
    Nat.pow 2 (2 - b.exponent).toNat * Nat.pow 10 k.toNat)

/-- Whether the point `n * 10 ^ k` rounds to the double. The ends of the interval do if the
mantissa is even. -/
def contains (b : Binary) (k : Int) (n : Nat) : Bool :=
  let (quarter, step) := b.scales k
  let low := (4 * b.mantissa - if b.narrowBelow then 1 else 2) * quarter
  let high := (4 * b.mantissa + 2) * quarter
  let point := n * step
  if b.mantissa % 2 = 0 then low ≤ point ∧ point ≤ high else low < point ∧ point < high

/-- The neighbour of the double on the grid `10 ^ k` that rounds to it, the nearer one of two. -/
def nearest? (b : Binary) (k : Int) : Option Nat :=
  let (quarter, step) := b.scales k
  let value := 4 * b.mantissa * quarter
  let below := value / step
  match b.contains k below, b.contains k (below + 1) with
  | true, true => some (if 2 * (value % step) ≤ step then below else below + 1)
  | true, false => some below
  | false, true => some (below + 1)
  | false, false => none

/-- The point on the widest of the grids `10 ^ k`, `10 ^ (k - 1)` and so on that rounds to the
double, with its grid. The last grid is always fine enough. -/
def searchGrids (b : Binary) : (grids : Nat) → (k : Int) → Nat × Int
  | 0, k => ((b.nearest? k).getD 0, k)
  | grids + 1, k =>
    match b.nearest? k with
    | some n => (n, k)
    | none => b.searchGrids grids (k - 1)

/-- The shortest decimal of the double as digits and a power of ten. No grid wider than the whole
part is tried, and seventeen digits are always enough. -/
def shortest (b : Binary) : Nat × Int :=
  let whole := b.mantissa * Nat.pow 2 b.exponent.toNat / Nat.pow 2 (-b.exponent).toNat
  b.searchGrids 400 (Decimal.digitCount whole)

end Binary

/-- The shortest decimal of a non-negative finite double, always with a digit after the point. -/
def Number.ofFloat (x : Float) : Number :=
  let b := Binary.ofBits x.toBits
  if b.mantissa = 0 then .decimal false 0 (-1)
  else
    let (digits, k) := b.shortest
    if 0 ≤ k then .decimal false (digits * Nat.pow 10 (k.toNat + 1)) (-1)
    else .decimal false digits k

end TypeRecovery
