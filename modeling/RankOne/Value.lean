import RankOne.Fault
import RankOne.Text.Numeral

/-!
# Values handed in by a caller

A caller hands in values of many kinds. `Value.scalar` reads one as a residue and takes integers,
truth values and elements of any field; everything else is refused, never rounded. `Value.whole`
is the laxer reading as a plain integer, which also drops the fraction of a number and reads
numerals.
-/

namespace RankOne

inductive Value where
  | integer (n : Int)
  | truth (b : Bool)
  /-- An element of some field, by its least non-negative representative there. -/
  | element (n : Nat)
  | real (x : Float)
  | text (s : String)
  | bytes (data : Bytes)
  | sequence
  | mapping
  | absent

/-- The number without its fraction. A finite number is `m * 2 ^ (e - 1075)` for the exponent
field `e` (one where the field is zero) and the significand `m`. -/
def truncate (x : Float) : Except Fault Int :=
  let bits := x.toBits.toNat
  let field := (bits >>> 52) % (1 <<< 11)
  let fraction := bits % (1 <<< 52)
  if field = 2047 then .error (if fraction = 0 then .infinite else .undefined)
  else
    let m := if field = 0 then fraction else fraction + (1 <<< 52)
    let size : Nat := (m <<< max field 1) >>> 1075
    .ok (if bits < (1 <<< 63) then size else -(size : Int))

namespace Value

/-- The name of the kind of a value, as messages show it. -/
def kind : Value → String
  | integer _ => "int"
  | truth _ => "bool"
  | element _ => "field element"
  | real _ => "float"
  | text _ => "str"
  | bytes _ => "bytes"
  | sequence => "list"
  | mapping => "dict"
  | absent => "NoneType"

/-- A scalar, handed in as an element of its field. -/
def ofScalar (a : Scalar) : Value := .element a.val

/-- The residue that a value stands for. -/
def scalar : Value → Except Fault Scalar
  | integer n => .ok (Scalar.ofInt n)
  | truth b => .ok (Scalar.ofNat b.toNat)
  | element n => .ok (Scalar.ofNat n)
  | v => .error (.notAScalar v.kind)

/-- The integer that a value stands for. -/
def whole : Value → Except Fault Int
  | integer n => .ok n
  | truth b => .ok b.toNat
  | element n => .ok n
  | real x => truncate x
  | text s =>
    match Text.integer? s.toList with
    | some n => .ok n
    | none => .error (.notNumeric (Text.excerpt (Text.quote s)))
  | bytes data =>
    match Text.integerOfBytes? data with
    | some n => .ok n
    | none => .error (.notNumeric (Text.excerpt (Text.quoteBytes (data.take Text.excerptSize))))
  | v => .error (.notANumber v.kind)

/-- The 32 bytes of a value read as an integer, which is not reduced. -/
def encode (v : Value) : Except Fault Bytes := do
  let n ← v.whole
  (encodeInteger n).mapError .integer

/-- Whether the most significant of the 32 bytes is non-zero. -/
def negative (v : Value) : Except Fault Bool := do
  let data ← v.encode
  return topByteSet data

/-- The integer on its side of the midpoint of the scalars; it is not reduced first. -/
def nearest (v : Value) : Except Fault Int := do
  let n ← v.whole
  return centred n

end Value

end RankOne
