import RankOne.Fault

/-!
# Two's complement patterns

The pattern of a scalar of so many bits, least significant bit first: the bits of a non-negative
number, or those of the opposite number complemented and increased by one. Which of the two
applies is read from the top byte of the encoding. `patternToInt` reads a pattern back, its last
bit counting negatively.
-/

namespace RankOne

/-- The lowest bits of a number, least significant first. -/
def lowBits (width n : Nat) : List Bool := (List.range width).map n.testBit

/-- Adds one; a carry out of the last bit is dropped. -/
def increment : List Bool → List Bool
  | [] => []
  | false :: bs => true :: bs
  | true :: bs => false :: increment bs

def twosComplement (width : Nat) (a : Scalar) : List Bool :=
  if a.negative then increment ((lowBits width (-a).val).map not) else lowBits width a.val

/-- The pattern of any width; the bits come from an encoding, which has eight for each byte. -/
def patternOf (width : Int) (a : Scalar) : Except Fault (List Bool) :=
  if width ≤ 8 * Scalar.size then .ok (twosComplement width.toNat a) else .error .bitOutOfReach

def patternToInt : List Bool → Int
  | [] => 0
  | [b] => -(b.toNat : Int)
  | b :: bs => b.toNat + 2 * patternToInt bs

/-- The number of binary digits. -/
def bitLength (n : Nat) : Nat := if n = 0 then 0 else n.log2 + 1

/-- The least width of a pattern that reads back as the number: one more than the digits of the
number itself, or of its complement when it is negative. -/
def neededWidth (n : Int) : Nat :=
  bitLength (if 0 ≤ n then n.toNat else (-n - 1).toNat) + 1

/-- The greatest shift of the number one whose result can be kept. Numbers are kept in digits of
thirty bits, four bytes each behind a head of 24 bytes, and a signed word of 64 bits has to count
the bytes; the digit that takes the carry of the shift is not filled. -/
def maxShift : Nat := 30 * (((1 <<< 63) - 25) / 4 - 1)

/-- Refuses a scalar whose integer does not fit a pattern of so many bits. The integer is held
against one shifted by the bits below the last, so the width has to allow that shift. -/
def requireFit (width : Int) (a : Scalar) : Except Fault Unit :=
  if width ≤ 0 then .error .negativeShift
  else if maxShift < width - 1 then .error .shiftTooLarge
  else if neededWidth a.toInt ≤ width then .ok ()
  else .error (.tooWide (bitLength a.toInt.natAbs - 1) width)

end RankOne
