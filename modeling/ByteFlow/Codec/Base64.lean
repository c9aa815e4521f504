import ByteFlow.Byte

/-! Base64 text: three bytes as four symbols of six bits, a shorter end with optional `=` padding.
Text is written and read by an engine from outside, which is told an alphabet and how to treat padding. What is relied on
of an engine is stated group by group. -/
namespace ByteFlow.Codec.Base64

/-! Symbols -/

/-- The two last symbols are `+` `/`, or `-` `_` where names and addresses forbid those. -/
inductive Alphabet where
  | standard
  | urlSafe
  deriving DecidableEq, Repr

def padding : UInt8 := 0x3d

def symbol (a : Alphabet) (value : Nat) : UInt8 :=
  if value < 26 then UInt8.ofNat (0x41 + value)
  else if value < 52 then UInt8.ofNat (0x61 + (value - 26))
  else if value < 62 then UInt8.ofNat (0x30 + (value - 52))
  else match a with
    | .standard => if value = 62 then 0x2b else 0x2f
    | .urlSafe => if value = 62 then 0x2d else 0x5f

/-- Symbols of six-bit values, and so much padding behind them. -/
def spell (a : Alphabet) (sextets : List Nat) (pads : Nat) : List UInt8 :=
  sextets.map (symbol a) ++ List.replicate pads padding

/-- The six-bit values of the bytes, the last one filled up with zero bits. -/
def split : List UInt8 → List Nat
  | a :: b :: c :: rest =>
    let n := (a.toNat * 256 + b.toNat) * 256 + c.toNat
    n / 0x40000 :: n / 0x1000 % 64 :: n / 64 % 64 :: n % 64 :: split rest
  | [a, b] =>
    let n := (a.toNat * 256 + b.toNat) * 4
    [n / 0x1000, n / 64 % 64, n % 64]
  | [a] =>
    let n := a.toNat * 16
    [n / 64, n % 64]
  | [] => []

/-- The bytes of one group of six-bit values; bits that fill no byte are dropped. -/
def join : List Nat → List UInt8
  | [a, b, c, d] =>
    let n := ((a * 64 + b) * 64 + c) * 64 + d
    [UInt8.ofNat (n / 0x10000), UInt8.ofNat (n / 256 % 256), UInt8.ofNat (n % 256)]
  | [a, b, c] =>
    let n := ((a * 64 + b) * 64 + c) / 4
    [UInt8.ofNat (n / 256), UInt8.ofNat (n % 256)]
  | [a, b] => [UInt8.ofNat ((a * 64 + b) / 16)]
  | _ => []

/-- The bits of a group that fill no byte. -/
def leftover : List Nat → Nat
  | [_, b] => b % 16
  | [_, _, c] => c % 4
  | _ => 0

/-! Engines -/

/-- Which padding a text may have that is read. -/
inductive PaddingMode where
  | indifferent
  | requireCanonical
  | requireNone
  deriving DecidableEq, Repr

/-- How an engine is set up. -/
structure Setup where
  encodePadding : Bool
  allowTrailingBits : Bool
  paddingMode : PaddingMode

/-- An engine pads what it writes, wants the same padding of what it reads, and bits that fill no byte to be zero. -/
def Setup.new : Setup := ⟨true, false, .requireCanonical⟩

/-- Padding may be there or not, and bits that fill no byte have to be zero. -/
structure Setup.Lenient (setup : Setup) : Prop where
  padding : setup.paddingMode = .indifferent
  bits : setup.allowTrailingBits = false

/-- Why a text is not Base64. -/
inductive Malformed where
  | symbol (byte : UInt8) (offset : Nat)
  | length (symbols : Nat)
  | lastSymbol (byte : UInt8) (offset : Nat)
  | padding
  deriving DecidableEq, Repr

/-- What writes and reads symbols, and words the faults of a text. -/
structure Engine where
  encode : Alphabet → Setup → List UInt8 → List UInt8
  decode : Alphabet → Setup → List UInt8 → Except Malformed (List UInt8)
  describe : Malformed → String

/-- The values of four symbols. -/
structure Whole (group : List Nat) : Prop where
  length : group.length = 4
  small : ∀ v ∈ group, v < 64

/-- The values of two or three symbols, and padding in place of those that lack at most. -/
structure Short (group : List Nat) (pads : Nat) : Prop where
  length : group.length = 2 ∨ group.length = 3
  small : ∀ v ∈ group, v < 64
  fits : group.length + pads ≤ 4

/-- The description of an engine. Three bytes are written as four symbols, and one or two at the end as two or three. Read
are groups of four symbols, and behind them a shorter one whose spare bits are zero, with no more padding than it
lacks symbols; nothing else is. -/
structure Engine.Lawful (engine : Engine) : Prop where
  encode_nil : ∀ a setup, engine.encode a setup [] = []
  encode_group : ∀ a setup x y z bytes,
    engine.encode a setup (x :: y :: z :: bytes) = (split [x, y, z]).map (symbol a) ++ engine.encode a setup bytes
  encode_two : ∀ a setup x y, engine.encode a setup [x, y] = spell a (split [x, y]) (if setup.encodePadding then 1 else 0)
  encode_one : ∀ a setup x, engine.encode a setup [x] = spell a (split [x]) (if setup.encodePadding then 2 else 0)
  decode_nil : ∀ a setup, setup.Lenient → engine.decode a setup [] = .ok []
  decode_group : ∀ a setup group text bytes, setup.Lenient → Whole group →
    (engine.decode a setup (group.map (symbol a) ++ text) = .ok bytes ↔
      ∃ more, engine.decode a setup text = .ok more ∧ bytes = join group ++ more)
  decode_short : ∀ a setup group pads bytes, setup.Lenient → Short group pads →
    (engine.decode a setup (spell a group pads) = .ok bytes ↔ leftover group = 0 ∧ bytes = join group)
  decode_shape : ∀ a setup text bytes, setup.Lenient → engine.decode a setup text = .ok bytes →
    text = [] ∨ (∃ group rest, Whole group ∧ text = group.map (symbol a) ++ rest) ∨
      ∃ group pads, Short group pads ∧ text = spell a group pads

/-! Options -/

/-- The two choices that a caller has. -/
structure Options where
  urlSafe : Bool
  omitTrailingEquals : Bool
  deriving DecidableEq, Repr

namespace Options

def alphabet (o : Options) : Alphabet := if o.urlSafe then .urlSafe else .standard

def setup (o : Options) : Setup :=
  { Setup.new with encodePadding := !o.omitTrailingEquals, paddingMode := .indifferent }

/-- The same without padding. -/
def bare (o : Options) : Options := { o with omitTrailingEquals := true }

theorem lenient (o : Options) : o.setup.Lenient := ⟨rfl, rfl⟩

end Options

variable (engine : Engine)

/-- The wording of a fault. -/
def Engine.message (m : Malformed) : String := "invalid base64 input: " ++ engine.describe m

def toBase64 (bytes : List UInt8) (o : Options) : List UInt8 := engine.encode o.alphabet o.setup bytes

def fromBase64 (text : List UInt8) (o : Options) : Except Malformed (List UInt8) :=
  engine.decode o.alphabet o.setup text

end ByteFlow.Codec.Base64
