/-!
# Numerals

The text of an integer: decimal digits with a sign before them or none, and blanks on either
side. The digits may be those of any script, also mixed, and one underscore may stand between two
of them. `integer?` reads such a text and refuses every other.
-/

namespace RankOne.Text

/-- The code points of the zeros of all scripts. The other nine digits follow each of them. -/
def zeros : List Nat :=
  [0x30, 0x660, 0x6f0, 0x7c0, 0x966, 0x9e6, 0xa66, 0xae6, 0xb66, 0xbe6, 0xc66, 0xce6, 0xd66,
    0xde6, 0xe50, 0xed0, 0xf20, 0x1040, 0x1090, 0x17e0, 0x1810, 0x1946, 0x19d0, 0x1a80, 0x1a90,
    0x1b50, 0x1bb0, 0x1c40, 0x1c50, 0xa620, 0xa8d0, 0xa900, 0xa9d0, 0xa9f0, 0xaa50, 0xabf0,
    0xff10, 0x104a0, 0x10d30, 0x11066, 0x110f0, 0x11136, 0x111d0, 0x112f0, 0x11450, 0x114d0,
    0x11650, 0x116c0, 0x11730, 0x118e0, 0x11950, 0x11c50, 0x11d50, 0x11da0, 0x16a60, 0x16ac0,
    0x16b50, 0x1d7ce, 0x1d7d8, 0x1d7e2, 0x1d7ec, 0x1d7f6, 0x1e140, 0x1e2f0, 0x1e950, 0x1fbf0]

/-- The value of a digit. -/
def digit? (c : Char) : Option Nat :=
  (zeros.find? fun z => z ≤ c.toNat && c.toNat < z + 10).map fun z => c.toNat - z

/-- The first and the last code point of each stretch of blanks. -/
def blankRanges : List (Nat × Nat) :=
  [(0x09, 0x0d), (0x20, 0x20), (0x85, 0x85), (0xa0, 0xa0), (0x1680, 0x1680), (0x2000, 0x200a),
    (0x2028, 0x2029), (0x202f, 0x202f), (0x205f, 0x205f), (0x3000, 0x3000)]

def isBlank (c : Char) : Bool := blankRanges.any fun r => r.1 ≤ c.toNat && c.toNat ≤ r.2

/-- The text without the blanks on either side. -/
def trim (cs : List Char) : List Char :=
  ((cs.dropWhile isBlank).reverse.dropWhile isBlank).reverse

/-- Appends digits to a number of which at least one digit has been read. -/
def moreDigits? (n : Nat) : List Char → Option Nat
  | [] => some n
  | '_' :: c :: cs => (digit? c).bind fun d => moreDigits? (10 * n + d) cs
  | c :: cs => (digit? c).bind fun d => moreDigits? (10 * n + d) cs

def natural? : List Char → Option Nat
  | [] => none
  | c :: cs => (digit? c).bind fun d => moreDigits? d cs

/-- The integer that a text spells. -/
def integer? (cs : List Char) : Option Int :=
  match trim cs with
  | '-' :: ds => (natural? ds).map fun n => -(n : Int)
  | '+' :: ds => (natural? ds).map fun n => (n : Int)
  | ds => (natural? ds).map fun n => (n : Int)

/-- The integer that bytes spell, which have to be ASCII. -/
def integerOfBytes? (data : List UInt8) : Option Int :=
  if data.all (· < 0x80) then integer? (data.map fun b => Char.ofNat b.toNat) else none

end RankOne.Text
