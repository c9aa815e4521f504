import ByteFlow.Text.Quoted

/-! Byte sequences as JSON documents: an array of numbers below 256, or a string.
A string may be read raw, where lone surrogates and control characters stand for bytes too. -/
namespace ByteFlow.Codec.Json

/-- Whether strings must be text, or are only byte carriers. -/
inductive Strings where
  | checked
  | raw
  deriving DecidableEq, Repr

def isSpace (c : Char) : Bool := c == ' ' || c == '\t' || c == '\n' || c == '\r'

def skipSpace (cs : List Char) : List Char := cs.dropWhile isSpace

/-- A piece of a string: a character as it stands, or a 16-bit unit written by number. -/
inductive Piece where
  | plain (c : Char)
  | unit (u : Nat)

/-- The unit that four hexadecimal digits write. -/
def unit? (cs : List Char) : Option Nat :=
  cs.foldlM (fun n c => (Byte.digitIn? 16 (UInt8.ofNat (min c.toNat 0xff))).map (16 * n + ·)) 0

/-- The character that a one-letter escape stands for. -/
def letter? (c : Char) : Option Char :=
  match c with
  | '"' => some '"'
  | '\\' => some '\\'
  | '/' => some '/'
  | 'b' => some (Char.ofNat 8)
  | 'f' => some (Char.ofNat 12)
  | 'n' => some '\n'
  | 'r' => some '\r'
  | 't' => some '\t'
  | _ => none

/-- The pieces of a string whose opening quote was read, and what follows its closing quote. -/
def pieces? (strings : Strings) : List Char → Option (List Piece × List Char)
  | [] => none
  | '"' :: rest => some ([], rest)
  | '\\' :: 'u' :: a :: b :: c :: d :: rest => do
    let u ← unit? [a, b, c, d]
    let (ps, rest) ← pieces? strings rest
    return (.unit u :: ps, rest)
  | '\\' :: e :: rest => do
    let c ← letter? e
    let (ps, rest) ← pieces? strings rest
    return (.plain c :: ps, rest)
  | c :: rest =>
    if strings = .checked ∧ c.toNat < 0x20 then none
    else do
      let (ps, rest) ← pieces? strings rest
      return (.plain c :: ps, rest)

def isLead (u : Nat) : Bool := 0xd800 ≤ u && u ≤ 0xdbff

def isTrail (u : Nat) : Bool := 0xdc00 ≤ u && u ≤ 0xdfff

/-- The three bytes of a surrogate that has no partner. -/
def loneUnit (u : Nat) : List UInt8 :=
  [UInt8.ofNat (0xe0 + u / 0x1000), UInt8.ofNat (0x80 + u / 64 % 64), UInt8.ofNat (0x80 + u % 64)]

def character (c : Char) : List UInt8 := Text.Utf8.encode (String.singleton c)

/-- The bytes of a string: a lead and a trail in a row are one character. -/
def bytes? (strings : Strings) : List Piece → Option (List UInt8)
  | [] => some []
  | .plain c :: rest => (bytes? strings rest).map (character c ++ ·)
  | .unit u :: .unit v :: rest =>
    if isLead u && isTrail v then
      (bytes? strings rest).map
        (character (Char.ofNat (0x10000 + (u - 0xd800) * 0x400 + (v - 0xdc00))) ++ ·)
    else if isLead u || isTrail u then
      if strings = .checked then none
      else (bytes? strings (.unit v :: rest)).map (loneUnit u ++ ·)
    else (bytes? strings (.unit v :: rest)).map (character (Char.ofNat u) ++ ·)
  | .unit u :: rest =>
    if isLead u || isTrail u then
      if strings = .checked then none else (bytes? strings rest).map (loneUnit u ++ ·)
    else (bytes? strings rest).map (character (Char.ofNat u) ++ ·)

/-- A number below 256 without sign, leading zero, fraction or exponent, and what follows it. -/
def number? (cs : List Char) : Option (UInt8 × List Char) :=
  let ds := cs.takeWhile Char.isDigit
  let value := ds.foldl (fun n c => 10 * n + (c.toNat - 0x30)) 0
  if ds.isEmpty || (ds.head? == some '0' && ds.length != 1) || 255 < value then none
  else some (UInt8.ofNat value, cs.drop ds.length)

/-- The numbers of an array from one of them on, and what follows the closing bracket. -/
def numbers? (fuel : Nat) (cs : List Char) : Option (List UInt8 × List Char) :=
  match fuel with
  | 0 => none
  | fuel + 1 => do
    let (b, rest) ← number? (skipSpace cs)
    match skipSpace rest with
    | ']' :: rest => return ([b], rest)
    | ',' :: rest =>
      let (bs, rest) ← numbers? fuel rest
      return (b :: bs, rest)
    | _ => none

/-- A document without the blanks before it, and what follows it. -/
def value? (strings : Strings) : List Char → Option (List UInt8 × List Char)
  | '"' :: rest => do
    let (ps, rest) ← pieces? strings rest
    return (← bytes? strings ps, rest)
  | '[' :: rest =>
    match skipSpace rest with
    | ']' :: rest => some ([], rest)
    | rest => numbers? (rest.length + 1) rest
  | _ => none

/-- The bytes that a whole document carries. -/
def read? (strings : Strings) (document : String) : Option (List UInt8) :=
  match value? strings (skipSpace document.toList) with
  | some (bs, rest) => if (skipSpace rest).isEmpty then some bs else none
  | none => none

/-- The bytes as an array of numbers without blanks. -/
def write (bs : List UInt8) : String :=
  "[" ++ ",".intercalate (bs.map fun b => toString b.toNat) ++ "]"

end ByteFlow.Codec.Json
