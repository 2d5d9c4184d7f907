import RankOne.Shape.Malformation
import RankOne.Text.Quoted

/-!
# Faults

Every way in which an operation of the library can fail, with what is needed to word it. The
wording is in `Fault.message` alone; everything else works with the causes.
-/

namespace RankOne

/-- The widest pattern that can be tied to a variable: the bits below the top byte of an encoded
scalar. -/
def maxWidth : Nat := 8 * (Scalar.size - 1)

inductive Fault where
  /-- Neither an integer nor an element of a field. -/
  | notAScalar (kind : String)
  | notANumber (kind : String)
  /-- A text that spells no integer; `shown` is the beginning of its quoted form. -/
  | notNumeric (shown : String)
  | infinite
  | undefined
  | integer (fault : IntegerFault)
  | encoding (fault : EncodingFault)
  | bitOutOfReach
  | negativeShift
  | shiftTooLarge
  /-- A magnitude of at least two to the power `exponent` is too large for the width. -/
  | tooWide (exponent : Nat) (width : Int)
  | boundsReversed (low high : Int)
  | unknownStyle (name : String)
  | valueBitsNotPositive
  | valueBitsTooMany (valueBits : Int)
  | widthOutOfBounds (width : Int)
  | closed
  | duplicate (name : String)
  | noValue (name : String)
  /-- Lists the names without a value and the names with a value but no index. -/
  | incomplete (valueCount nameCount : Nat) (missing unknown : List String)
  | noElements
  | malformed (cause : Malformation)
  /-- An integer in a report has more digits than are written out. -/
  | digitsTooMany (limit : Nat)
  | entryOutOfReach
  | indexTooLarge
  | rowCountTooLarge
  | outOfMemory
  | unknownVariable
  | violatedWitness
deriving DecidableEq

/-- At most five names, quoted. -/
def someNames (names : List String) : String :=
  Text.bracketed ((names.take 5).map Text.quote)

def IntegerFault.message : IntegerFault → String
  | .negative => "can't convert negative int to unsigned"
  | .tooBig => "int too big to convert"

def Fault.message : Fault → String
  | .notAScalar kind => s!"expected an integer or field element, got {kind}"
  | .notANumber kind =>
    "int() argument must be a string, a bytes-like object or a real number, not '" ++ kind ++ "'"
  | .notNumeric shown => "invalid literal for int() with base 10: " ++ shown
  | .infinite => "cannot convert float infinity to integer"
  | .undefined => "cannot convert float NaN to integer"
  | .integer f => f.message
  | .encoding f => f.message
  | .bitOutOfReach => "index out of range"
  | .negativeShift => "negative shift count"
  | .shiftTooLarge => "too many digits in integer"
  | .tooWide k w =>
    s!"value of magnitude 2^{k}+ does not fit a {w}-bit two's-complement decomposition"
  | .boundsReversed low high => s!"lower bound {low} exceeds upper bound {high}"
  | .unknownStyle name => Text.quote name ++ " is not a valid DecompositionStyle"
  | .valueBitsNotPositive => "input_bits must be positive"
  | .valueBitsTooMany n =>
    let needed := 2 * n + 2
    s!"input_bits={n} needs {needed} decomposition bits, at most {maxWidth} are supported"
  | .widthOutOfBounds w => s!"decomposition width must be in [2, {maxWidth}], got {w}"
  | .closed => "builder session is already finalized"
  | .duplicate name => "variable '" ++ name ++ "' already has a witness value"
  | .noValue name => Text.quote name
  | .incomplete v n missing unknown =>
    s!"{v} witness values for {n} variables; missing=" ++ someNames missing ++
      " unknown=" ++ someNames unknown
  | .noElements => "set membership needs at least one element"
  | .malformed cause => cause.message
  | .digitsTooMany limit =>
    s!"Exceeds the limit ({limit} digits) for integer string conversion; " ++
      "use sys.set_int_max_str_digits() to increase the limit"
  | .entryOutOfReach => "list index out of range"
  | .indexTooLarge | .rowCountTooLarge => "cannot fit 'int' into an index-sized integer"
  | .outOfMemory => ""
  | .unknownVariable => "tuple.index(x): x not in tuple"
  | .violatedWitness => "refusing to prove: witness does not satisfy its own instance"

end RankOne
