import ByteFlow.Text.Spacing
import ByteFlow.Text.Utf8

/-! Integers as text in a base from 2 to 36.
Reading allows blanks around, one sign and a base mark; writing is canonical. -/
namespace ByteFlow.Number.Integer

/-- Why a text is not an integer of the wanted kind. -/
inductive Malformed where
  | empty
  | invalidDigit
  | overflow
  | invalidBase (base : Nat)
  deriving DecidableEq, Repr

/-- What is said of a number text that is blank. -/
def emptyMessage : String := "cannot parse number from empty input"

def Malformed.message : Malformed → String
  | .empty => emptyMessage
  | .invalidDigit => "invalid digit in number"
  | .overflow => "number out of range for target type"
  | .invalidBase base => "invalid base " ++ toString base

/-- A fixed-width kind of integer. -/
structure Kind where
  signed : Bool
  bits : Nat
  deriving DecidableEq, Repr

def Kind.least (k : Kind) : Int := if k.signed then -(Nat.pow 2 (k.bits - 1)) else 0

def Kind.greatest (k : Kind) : Int :=
  (Nat.pow 2 (if k.signed then k.bits - 1 else k.bits) : Int) - 1

def Kind.holds (k : Kind) (value : Int) : Bool := decide (k.least ≤ value ∧ value ≤ k.greatest)

/-- Whether a minus sign leads the text, and what follows an optional sign. -/
def splitSign : List UInt8 → Bool × List UInt8
  | [] => (false, [])
  | b :: rest =>
    if b = Byte.minus then (true, rest)
    else if b = Byte.plus then (false, rest)
    else (false, b :: rest)

def isHexMark (b : UInt8) : Bool := Byte.toLower b == 0x78

def isBinaryMark (b : UInt8) : Bool := Byte.toLower b == 0x62

/-- Base and digits of a text whose mark tells the base: `0x`, `0b`, or `0` before more digits. -/
def splitMark : List UInt8 → Nat × List UInt8
  | [] => (10, [])
  | [b] => (10, [b])
  | zero :: mark :: rest =>
    if zero ≠ 0x30 then (10, zero :: mark :: rest)
    else if isHexMark mark then (16, rest)
    else if isBinaryMark mark then (2, rest)
    else (8, mark :: rest)

/-- Digits after an optional `0x`. -/
def dropHexMark : List UInt8 → List UInt8
  | zero :: mark :: rest => if zero = 0x30 ∧ isHexMark mark then rest else zero :: mark :: rest
  | text => text

/-- The base that digits are read in, and the digits; base 0 leaves the choice to the text. -/
def splitBase (base : Nat) (text : List UInt8) : Except Malformed (Nat × List UInt8) :=
  if base = 0 then .ok (splitMark text)
  else if base = 16 then .ok (16, dropHexMark text)
  else if 2 ≤ base ∧ base ≤ 36 then .ok (base, text)
  else .error (.invalidBase base)

/-- Adds digits to `value` from the left; at each one an invalid digit is found before an overflow.
-/
def accumulate (k : Kind) (base : Nat) (negative : Bool) (value : Int) :
    List UInt8 → Except Malformed Int
  | [] => .ok value
  | b :: rest =>
    match Byte.digitIn? base b with
    | none => .error .invalidDigit
    | some d =>
      let next := value * base + (if negative then -(d : Int) else (d : Int))
      if k.holds next then accumulate k base negative next rest else .error .overflow

def isSign (b : UInt8) : Bool := b == Byte.minus || b == Byte.plus

/-- The value of a digit text, which is not empty and has no sign of its own. -/
def ofDigits (k : Kind) (base : Nat) (negative : Bool) (digits : List UInt8) :
    Except Malformed Int :=
  if digits.isEmpty || digits.head?.any isSign || !Text.Utf8.isValid digits then
    .error .invalidDigit
  else if negative && !k.signed then .error .invalidDigit
  else accumulate k base negative 0 digits

/-- The integer that a text writes in `base`, if it is one of kind `k`. -/
def read (k : Kind) (base : Nat) (text : List UInt8) : Except Malformed Int := do
  let body := Text.Spacing.trim text
  if body.isEmpty then throw .empty
  let (negative, rest) := splitSign body
  let (radix, digits) ← splitBase base rest
  ofDigits k radix negative digits

/-- Digits of a number from the highest, without leading zeros. -/
def digits (base n : Nat) : List UInt8 :=
  if _h : 2 ≤ base ∧ base ≤ n then digits base (n / base) ++ [Byte.digit (n % base)]
  else [Byte.digit n]
termination_by n
decreasing_by exact Nat.div_lt_self (by omega) (by omega)

/-- A number in `base`, or in decimal if that is no base; the sign is written for negative ones. -/
def write (base : Nat) (value : Int) : List UInt8 :=
  let radix := if 2 ≤ base ∧ base ≤ 36 then base else 10
  if value < 0 then Byte.minus :: digits radix value.natAbs else digits radix value.natAbs

end ByteFlow.Number.Integer
