import ByteFlow.Text.Quoted

/-! Hexadecimal text: two digits a byte, high half first.
Digits are written and read by a coder from outside, which is handed the bytes as they are; only separators are put in
here. What is relied on of a coder is stated pair by pair. -/
namespace ByteFlow.Codec.Hex

/-- Why a text is not hexadecimal. -/
inductive Malformed where
  | oddLength
  | badDigit (byte : UInt8) (position : Nat)
  deriving DecidableEq, Repr

/-- What writes and reads hexadecimal digits, and words the faults of a text. -/
structure Coder where
  encode : List UInt8 → List UInt8
  decode : List UInt8 → Except Malformed (List UInt8)
  describe : Malformed → String

/-- The byte that two digits in either case stand for; the first that is none is named. -/
def pair (high low : UInt8) : Except Malformed UInt8 :=
  match Byte.digitIn? 16 high, Byte.digitIn? 16 low with
  | none, _ => .error (.badDigit high 0)
  | some _, none => .error (.badDigit low 1)
  | some h, some l => .ok (UInt8.ofNat (16 * h + l))

/-- How a text is read that has two bytes before one that is read like this. An odd length is told before any other
fault, and those are told from the left. -/
def pairBefore (high low : UInt8) : Except Malformed (List UInt8) → Except Malformed (List UInt8)
  | .ok bytes => (pair high low).map (· :: bytes)
  | .error (.badDigit b position) => (pair high low).bind fun _ => .error (.badDigit b (position + 2))
  | .error .oddLength => .error .oddLength

/-- The description of a coder: small letters are written, both cases are read, and a text needs an even length. -/
structure Coder.Lawful (coder : Coder) : Prop where
  encode_nil : coder.encode [] = []
  encode_cons : ∀ b bytes,
    coder.encode (b :: bytes) = Byte.digit (b.toNat / 16) :: Byte.digit (b.toNat % 16) :: coder.encode bytes
  decode_nil : coder.decode [] = .ok []
  decode_single : ∀ b, coder.decode [b] = .error .oddLength
  decode_pair : ∀ high low text, coder.decode (high :: low :: text) = pairBefore high low (coder.decode text)

variable (coder : Coder)

/-- The wording of a fault. -/
def Coder.message (m : Malformed) : String := "invalid hex input: " ++ coder.describe m

def toHex (bytes : List UInt8) : List UInt8 := coder.encode bytes

/-- Each byte on its own, with `separator` between bytes. -/
def toHexSeparated (separator : UInt8) : List UInt8 → List UInt8
  | [] => []
  | [b] => coder.encode [b]
  | b :: next :: rest => coder.encode [b] ++ separator :: toHexSeparated separator (next :: rest)

def fromHex (text : List UInt8) : Except Malformed (List UInt8) := coder.decode text

/-! A coder to run -/

def decodePairs : List UInt8 → Except Malformed (List UInt8)
  | [] => .ok []
  | [_] => .error .oddLength
  | high :: low :: text => pairBefore high low (decodePairs text)

/-- A coder that does what the description says. -/
def Coder.reference : Coder where
  encode bytes := bytes.flatMap fun b => [Byte.digit (b.toNat / 16), Byte.digit (b.toNat % 16)]
  decode := decodePairs
  describe
    | .oddLength => "Odd number of digits"
    | .badDigit b position =>
      "Invalid character " ++ Text.Quoted.character (Char.ofNat b.toNat) ++ " at position " ++ toString position

theorem Coder.reference_lawful : reference.Lawful where
  encode_nil := rfl
  encode_cons _ _ := rfl
  decode_nil := rfl
  decode_single _ := rfl
  decode_pair _ _ _ := rfl

end ByteFlow.Codec.Hex
