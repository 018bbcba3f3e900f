/-!
# Words

Offsets, constants and possible-value masks are 64-bit words. A value of `size` bytes occupies
the low bytes of a word; values wider than a word are represented by their low eight bytes.
-/

namespace TypeRecovery

/-- The number of low bits of a word that a value of `size` bytes can reach. -/
def wordBits (size : Nat) : Nat := 8 * min size 8

/-- The mask of the low `size` bytes of a word; eight bytes or more give every bit. -/
def byteMask (size : Nat) : UInt64 := UInt64.ofNat (Nat.pow 2 (wordBits size) - 1)

/-- The low `size` bytes of a number read in two's complement. A size of zero, like every size
above eight, reads the whole word. -/
def signExtend (value : Nat) (size : Nat) : Int :=
  Int.bmod value (Nat.pow 2 (wordBits (if size = 0 then 8 else size)))

/-- The word congruent to an integer modulo `2 ^ 64`. -/
def wordOfInt (value : Int) : UInt64 := UInt64.ofNat (value % UInt64.size).toNat

/-- The word after another one; the last word has none after it. -/
def successor? (word : UInt64) : Option UInt64 :=
  if word = 0xffffffffffffffff then none else some (word + 1)

/-- A word shifted left, where a shift by the word width or more leaves nothing. -/
def shiftLeft (word : UInt64) (amount : Nat) : UInt64 :=
  if amount < 64 then word <<< UInt64.ofNat amount else 0

/-- A word shifted right, where a shift by the word width or more leaves nothing. -/
def shiftRight (word : UInt64) (amount : Nat) : UInt64 :=
  if amount < 64 then word >>> UInt64.ofNat amount else 0

end TypeRecovery
