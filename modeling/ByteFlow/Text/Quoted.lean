import ByteFlow.Number.Integer
import ByteFlow.Text.Unprintable

/-! Quoted forms of characters, texts and byte sequences for messages.
Between the quotes every character that could mislead a reader is written as an escape. -/
namespace ByteFlow.Text.Quoted

/-- A number in base 16 with small letters. -/
def hexadecimal (n : Nat) : List Char :=
  (Number.Integer.digits 16 n).map fun b => Char.ofNat b.toNat

/-- The escape of a code point by number. -/
def numbered (c : Char) : List Char :=
  ['\\', 'u', '\x7b'] ++ hexadecimal c.toNat ++ ['\x7d']

/-- A character between quotes of the kind `quote`; the other kind of quote needs no escape. -/
def escape (quote c : Char) : List Char :=
  if c = '\x00' then ['\\', '0']
  else if c = '\t' then ['\\', 't']
  else if c = '\n' then ['\\', 'n']
  else if c = '\r' then ['\\', 'r']
  else if c = '\\' ∨ c = quote then ['\\', c]
  else if Unprintable.holds c.toNat then numbered c
  else [c]

def character (c : Char) : String := String.ofList ('\'' :: escape '\'' c ++ ['\''])

def text (s : String) : String := String.ofList ('"' :: s.toList.flatMap (escape '"') ++ ['"'])

/-- A byte of a quoted byte sequence: two hexadecimal digits unless it is printable ASCII. -/
def escapeByte (b : UInt8) : List Char :=
  let c := Char.ofNat b.toNat
  if c = '\t' then ['\\', 't']
  else if c = '\n' then ['\\', 'n']
  else if c = '\r' then ['\\', 'r']
  else if c = '\\' ∨ c = '\'' ∨ c = '"' then ['\\', c]
  else if 0x20 ≤ b ∧ b ≤ 0x7e then [c]
  else ['\\', 'x', Char.ofNat (Byte.digit (b.toNat / 16)).toNat,
    Char.ofNat (Byte.digit (b.toNat % 16)).toNat]

def bytes (bs : List UInt8) : String := String.ofList ('b' :: '"' :: bs.flatMap escapeByte ++ ['"'])

end ByteFlow.Text.Quoted
