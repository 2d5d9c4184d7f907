import RankOne.Unpacking.Basic

/-!
# Options of range statements

`valueBits` bounds the bit length of the bounds and of the secret. The product of two differences
of such numbers needs twice as many bits, one for the sign and one to spare; that is the width to
which the product is unpacked, and it has to stay within what an unpacking supports.
-/

namespace RankOne.Range

structure Options where
  valueBits : Nat
  style : Style
  strict : Bool
  positive : 1 ≤ valueBits
  fits : 2 * valueBits + 2 ≤ maxWidth

namespace Options

/-- The width of the pattern that so many bits need. -/
def width (o : Options) : Nat := 2 * o.valueBits + 2

def new (valueBits : Int) (style : Style) (strict : Bool) : Except Fault Options :=
  if h : valueBits < 1 then .error .valueBitsNotPositive
  else if h' : 2 * valueBits + 2 ≤ maxWidth then
    .ok ⟨valueBits.toNat, style, strict, by omega, by omega⟩
  else .error (.valueBitsTooMany valueBits)

/-- Options whose style is given by name. The name is looked up first. -/
def ofName (valueBits : Int) (name : String) (strict : Bool) : Except Fault Options := do
  let style ← Style.ofName name
  new valueBits style strict

/-- One hundred bits, in the linear style, and strict. -/
def standard : Options := ⟨100, .linear, true, by decide, by decide⟩

/-- How the product of the gaps is unpacked. -/
def unpacking (o : Options) : Unpacking :=
  ⟨o.style, o.width, o.strict, by have h := o.positive; unfold width; omega, o.fits⟩

end Options

end RankOne.Range
