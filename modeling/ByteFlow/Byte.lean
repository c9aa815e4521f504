/-! Classes of single bytes and the digits they write.
All classes are ASCII: a byte of 128 or more is in none of them. -/
namespace ByteFlow.Byte

def lineFeed : UInt8 := 0x0a
def carriageReturn : UInt8 := 0x0d
def space : UInt8 := 0x20
def minus : UInt8 := 0x2d
def plus : UInt8 := 0x2b

/-- Space, tab, line feed, vertical tab, form feed and carriage return. -/
def isBlank (b : UInt8) : Bool := b == space || (0x09 ≤ b && b ≤ 0x0d)

def isUpper (b : UInt8) : Bool := 0x41 ≤ b && b ≤ 0x5a

def isLower (b : UInt8) : Bool := 0x61 ≤ b && b ≤ 0x7a

def isDigit (b : UInt8) : Bool := 0x30 ≤ b && b ≤ 0x39

def toLower (b : UInt8) : UInt8 := if isUpper b then b + 0x20 else b

def toUpper (b : UInt8) : UInt8 := if isLower b then b - 0x20 else b

/-- Letters, decimal digits and the four marks `-`, `.`, `_`, `~`. -/
def isUnreserved (b : UInt8) : Bool :=
  isUpper b || isLower b || isDigit b || b == minus || b == 0x2e || b == 0x5f || b == 0x7e

/-- The value of a digit below 36, letters of either case counting from ten. -/
def digitValue? (b : UInt8) : Option Nat :=
  if isDigit b then some (b.toNat - 0x30)
  else if isLower b then some (b.toNat - 0x61 + 10)
  else if isUpper b then some (b.toNat - 0x41 + 10)
  else none

/-- The value of `b` as a digit of `base`, if it is one. -/
def digitIn? (base : Nat) (b : UInt8) : Option Nat :=
  (digitValue? b).filter (· < base)

/-- The digit of a value below 36, with small letters. -/
def digit (value : Nat) : UInt8 :=
  if value < 10 then UInt8.ofNat (0x30 + value) else UInt8.ofNat (0x61 + (value - 10))

/-- The digit of a value below 36, with capital letters. -/
def upperDigit (value : Nat) : UInt8 := toUpper (digit value)

/-- What holds of the bytes of all numbers below 256 holds of every byte. -/
@[elab_as_elim]
theorem forall_of_lt {p : UInt8 → Prop} (b : UInt8) (all : ∀ n < 256, p (UInt8.ofNat n)) : p b := by
  simpa using all b.toNat b.toNat_lt

/-- A digit reads as the value it was written for. -/
theorem digitValue?_digit {value : Nat} (small : value < 36) : digitValue? (digit value) = some value := by
  revert value
  decide

theorem digitValue?_upperDigit {value : Nat} (small : value < 36) : digitValue? (upperDigit value) = some value := by
  revert value
  decide

end ByteFlow.Byte
