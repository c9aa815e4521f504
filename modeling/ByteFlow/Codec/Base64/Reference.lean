import ByteFlow.Codec.Base64

/-! An engine to run, which does what the description of one says.
Reading refuses stray symbols, impossible lengths, padding that is not wanted and leftover bits that are not zero. -/
namespace ByteFlow.Codec.Base64

/-- What stands behind symbols up to the next whole group. -/
def padFor (setup : Setup) (symbols : Nat) : Nat := if setup.encodePadding then (4 - symbols % 4) % 4 else 0

def encode (a : Alphabet) (setup : Setup) (bytes : List UInt8) : List UInt8 :=
  spell a (split bytes) (padFor setup (split bytes).length)

def value? (a : Alphabet) (b : UInt8) : Option Nat :=
  if Byte.isUpper b then some (b.toNat - 0x41)
  else if Byte.isLower b then some (b.toNat - 0x61 + 26)
  else if Byte.isDigit b then some (b.toNat - 0x30 + 52)
  else if b = symbol a 62 then some 62
  else if b = symbol a 63 then some 63
  else none

/-- The values of symbols alone, `offset` being the place of the first. -/
def values (a : Alphabet) (offset : Nat) : List UInt8 → Except Malformed (List Nat)
  | [] => .ok []
  | b :: rest =>
    match value? a b with
    | none => .error (.symbol b offset)
    | some v => (values a (offset + 1) rest).map (v :: ·)

/-- Checks that nothing but padding follows the padding that began at `first`. -/
def onlyPadding (first : Nat) (rest : List UInt8) : Except Malformed (List Nat) :=
  if rest.all (· == padding) then .ok [] else .error (.symbol padding first)

/-- The values of the last group, whose byte `index` is at `offset`: symbols, then padding, which
may not stand at the first two places. -/
def lastValues (a : Alphabet) (index offset : Nat) : List UInt8 → Except Malformed (List Nat)
  | [] => .ok []
  | b :: rest =>
    if b = padding then
      if index < 2 then .error (.symbol padding offset) else onlyPadding offset rest
    else match value? a b with
      | none => .error (.symbol b offset)
      | some v => (lastValues a (index + 1) (offset + 1) rest).map (v :: ·)

/-- Whether so much padding is wanted behind the symbols of the last group. -/
def PaddingMode.accepts (symbols pads : Nat) : PaddingMode → Bool
  | indifferent => true
  | requireCanonical => (symbols + pads) % 4 == 0
  | requireNone => pads == 0

/-- The bytes of the last group, which begins at `start`. -/
def decodeLast (a : Alphabet) (setup : Setup) (start : Nat) (group : List UInt8) : Except Malformed (List UInt8) := do
  let last ← lastValues a 0 start group
  if group ≠ [] ∧ last.length < 2 then throw (.length (start + last.length))
  if !setup.paddingMode.accepts last.length (group.length - last.length) then throw .padding
  if !setup.allowTrailingBits ∧ leftover last ≠ 0 then
    throw (.lastSymbol ((group[last.length - 1]?).getD padding) (start + last.length - 1))
  return join last

/-- The bytes of groups from `start` on. The last group is a whole one if the length allows. -/
def decodeGroups (a : Alphabet) (setup : Setup) (start : Nat) : List UInt8 → Except Malformed (List UInt8)
  | w :: x :: y :: z :: next :: rest => do
    let group ← values a start [w, x, y, z]
    let bytes ← decodeGroups a setup (start + 4) (next :: rest)
    return join group ++ bytes
  | group => decodeLast a setup start group

/-- A text one byte too long is judged by that byte before all else. -/
def checkStray (a : Alphabet) (text : List UInt8) : Except Malformed Unit :=
  match text.getLast? with
  | some b =>
    if text.length % 4 = 1 ∧ b ≠ padding ∧ value? a b = none then
      .error (.symbol b (text.length - 1))
    else .ok ()
  | none => .ok ()

def decode (a : Alphabet) (setup : Setup) (text : List UInt8) : Except Malformed (List UInt8) := do
  checkStray a text
  decodeGroups a setup 0 text

def Engine.reference : Engine where
  encode := Base64.encode
  decode := Base64.decode
  describe
    | .symbol b offset => "Invalid symbol " ++ toString b.toNat ++ ", offset " ++ toString offset ++ "."
    | .length symbols => "Invalid input length: " ++ toString symbols
    | .lastSymbol b offset => "Invalid last symbol " ++ toString b.toNat ++ ", offset " ++ toString offset ++ "."
    | .padding => "Invalid padding"

end ByteFlow.Codec.Base64
