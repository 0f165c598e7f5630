/-!
# JSON numbers

`Stage` follows the grammar of a number one character at a time: an optional minus sign, digits
without a superfluous leading zero, an optional fraction and an optional exponent. `inRange` tells
whether the number so written is finite as a double.

The value is judged from its leading digits: those that fit in 64 bits form the significand, and
each further digit before the point counts as a power of ten. Significand and power of ten are
rounded to 53 bits before they are multiplied, and so is their product.
-/

namespace FieldSelection.Json.Numeral

/-- How far a number has been read. -/
inductive Stage where
  /-- After the minus sign. -/
  | minus
  /-- After a leading zero. -/
  | zero
  /-- Among the digits before the point. -/
  | whole
  /-- After the point. -/
  | point
  /-- Among the digits after the point. -/
  | fraction
  /-- After the letter of the exponent. -/
  | mark
  /-- After the sign of the exponent. -/
  | sign
  /-- Among the digits of the exponent. -/
  | exponent
deriving DecidableEq

namespace Stage

/-- The stage in which a number starts with the given character. -/
def start? (c : Char) : Option Stage :=
  if c = '-' then some minus
  else if c = '0' then some zero
  else if c.isDigit then some whole
  else none

/-- What follows the digits before the point, if not another digit. -/
def afterWhole? (c : Char) : Option Stage :=
  if c = '.' then some point
  else if c = 'e' ∨ c = 'E' then some mark
  else none

/-- The stage after one more character, if that character can continue the number. -/
def next? : Stage → Char → Option Stage
  | minus, c => if c = '0' then some zero else if c.isDigit then some whole else none
  | zero, c => afterWhole? c
  | whole, c => if c.isDigit then some whole else afterWhole? c
  | point, c => if c.isDigit then some fraction else none
  | fraction, c =>
      if c.isDigit then some fraction
      else if c = 'e' ∨ c = 'E' then some mark
      else none
  | mark, c =>
      if c = '+' ∨ c = '-' then some sign
      else if c.isDigit then some exponent
      else none
  | sign, c => if c.isDigit then some exponent else none
  | exponent, c => if c.isDigit then some exponent else none

/-- Whether a number may end in this stage. -/
def isComplete : Stage → Bool
  | zero | whole | fraction | exponent => true
  | minus | point | mark | sign => false

end Stage

/-- The digits of a text, in order. -/
def digits (cs : List Char) : List Nat :=
  (cs.filter Char.isDigit).map fun c => c.toNat - '0'.toNat

/-- The number that a run of decimal digits denotes. -/
def ofDigits (ds : List Nat) : Nat :=
  ds.foldl (fun n d => n * 10 + d) 0

/-- Extends the decimal digits of `n` by those of a list while the result fits in 64 bits. The
digits left over are returned beside it. -/
def gather (n : Nat) : List Nat → Nat × List Nat
  | [] => (n, [])
  | d :: rest => if n * 10 + d < Nat.pow 2 64 then gather (n * 10 + d) rest else (n, d :: rest)

/-- The nearest number with at most 53 significant bits; of two equally near, the one whose last
bit is zero. -/
def round53 (n : Nat) : Nat :=
  let unit := Nat.pow 2 (n.log2 - 52)
  let low := n / unit * unit
  let excess := (n - low) * 2
  if excess < unit ∨ (excess = unit ∧ n / unit % 2 = 0) then low else low + unit

/-- Whether `significand * 10 ^ exponent` is finite as a double, for a significand of 64 bits. A
negative power of ten can only make it smaller. -/
def isFinite (significand : Nat) (exponent : Int) : Bool :=
  significand == 0 || exponent < 0 ||
    (exponent ≤ 308 &&
      round53 (round53 significand * round53 (Nat.pow 10 exponent.toNat)) < Nat.pow 2 1024)

/-- Whether a number, written as the grammar wants it, is finite as a double. -/
def inRange (literal : List Char) : Bool :=
  let isMark (c : Char) : Bool := c = 'e' || c = 'E'
  let decimal := literal.takeWhile (!isMark ·)
  let scale := literal.dropWhile (!isMark ·)
  let (leading, extra) := gather 0 (digits (decimal.takeWhile (· ≠ '.')))
  let fraction := digits (decimal.dropWhile (· ≠ '.'))
  let (significand, unread) := gather leading fraction
  let magnitude : Int := ofDigits (digits scale)
  let exponent : Int := if scale.contains '-' then -magnitude else magnitude
  isFinite significand (exponent + extra.length - (fraction.length - unread.length))

end FieldSelection.Json.Numeral
