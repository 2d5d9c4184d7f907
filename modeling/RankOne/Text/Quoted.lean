/-!
# Quoted text

Names inside messages are shown quoted: between two equal marks, with the mark, the backslash
and the characters that would not be visible written as escapes. Every other character stands
for itself. For bytes, everything beyond ASCII counts as not visible.
-/

namespace RankOne.Text

/-- The single mark, unless the text holds one and holds no double mark. -/
def markOf (cs : List Char) : Char :=
  if '\x27' ∈ cs ∧ '\x22' ∉ cs then '\x22' else '\x27'

/-- The controls, the no-break space and the soft hyphen. -/
def isHidden (c : Char) : Bool :=
  c.val < 0x20 || (0x7f ≤ c.val && c.val ≤ 0xa0) || c.val == 0xad

def beyondAscii (c : Char) : Bool := isHidden c || 0x7f ≤ c.val

def escape (hidden : Char → Bool) (mark c : Char) : List Char :=
  if c = mark ∨ c = '\\' then ['\\', c]
  else if c = '\t' then ['\\', 't']
  else if c = '\n' then ['\\', 'n']
  else if c = '\r' then ['\\', 'r']
  else if hidden c then
    ['\\', 'x', Nat.digitChar (c.toNat / 16), Nat.digitChar (c.toNat % 16)]
  else [c]

def quoteChars (hidden : Char → Bool) (cs : List Char) : List Char :=
  let mark := markOf cs
  mark :: (cs.flatMap (escape hidden mark) ++ [mark])

def quote (s : String) : String := String.ofList (quoteChars isHidden s.toList)

def quoteBytes (data : List UInt8) : String :=
  "b" ++ String.ofList (quoteChars beyondAscii (data.map fun b => Char.ofNat b.toNat))

/-- The number of characters, or of bytes to be quoted, that are shown of something long. -/
def excerptSize : Nat := 200

/-- The beginning of a long text. It is cut as it stands, also inside an escape. -/
def excerpt (s : String) : String := String.ofList (s.toList.take excerptSize)

/-- A list in brackets, its members separated by a comma and a blank. -/
def bracketed (members : List String) : String :=
  "[" ++ ", ".intercalate members ++ "]"

end RankOne.Text
