import ByteFlow.Byte

/-! Percent escapes: a kept byte stands for itself, any other is the escape byte and two digits.
Reading leaves malformed escapes as they are. -/
namespace ByteFlow.Codec.Percent

/-- Which bytes stand for themselves: never the escape byte; always the excluded ones; of the rest,
unreserved ones that are not included for escaping. -/
structure Rule where
  excluded : List UInt8
  included : List UInt8
  escape : UInt8

def Rule.keeps (r : Rule) (b : UInt8) : Bool :=
  b != r.escape && (r.excluded.contains b || (Byte.isUnreserved b && !r.included.contains b))

def escaped (escape b : UInt8) : List UInt8 :=
  [escape, Byte.upperDigit (b.toNat / 16), Byte.upperDigit (b.toNat % 16)]

def encode (r : Rule) (bytes : List UInt8) : List UInt8 :=
  bytes.flatMap fun b => if r.keeps b then [b] else escaped r.escape b

/-- The byte that two hexadecimal digits name. -/
def pair? (high low : UInt8) : Option UInt8 :=
  match Byte.digitIn? 16 high, Byte.digitIn? 16 low with
  | some h, some l => some (UInt8.ofNat (16 * h + l))
  | _, _ => none

def decode (escape : UInt8) : List UInt8 → List UInt8
  | [] => []
  | b :: high :: low :: rest =>
    if b = escape then
      match pair? high low with
      | some byte => byte :: decode escape rest
      | none => b :: decode escape (high :: low :: rest)
    else b :: decode escape (high :: low :: rest)
  | b :: rest => b :: decode escape rest

end ByteFlow.Codec.Percent
