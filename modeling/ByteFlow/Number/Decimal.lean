import ByteFlow.Number.Binary
import ByteFlow.Number.Integer

/-! Binary numbers as decimal text without exponent: the fewest digits that read back, or a fixed
number of places; and the reading of decimal text. -/
namespace ByteFlow.Number.Decimal
open Binary

/-- Digits with the place of the last one: the value is `digits` times ten to the `exponent`. -/
structure Scaled where
  digits : Nat
  exponent : Int

/-- No finite number of the formats reaches ten to this power, or falls below its inverse. -/
def reach : Nat := 400

/-- How many decimal digits a number has; zero has none. -/
def length (n : Nat) : Nat :=
  if _h : n = 0 then 0 else length (n / 10) + 1
termination_by n
decreasing_by omega

/-- Numerator and denominator of `x` times a power of ten. -/
def shifted (num den : Nat) (exponent : Int) : Nat × Nat :=
  if 0 ≤ exponent then (num * Nat.pow 10 exponent.toNat, den)
  else (num, den * Nat.pow 10 (-exponent).toNat)

/-- A positive number and the ends of the interval of reals that round to it, over one
denominator; the ends belong to the interval if `closed`. -/
structure Span where
  low : Nat
  value : Nat
  high : Nat
  denominator : Nat
  closed : Bool

/-- The gap below a power of two is half the gap above it. -/
def Span.ofFinite (f : Format) (significand : Nat) (exponent : Int) : Span :=
  let below := if significand = Nat.pow 2 f.fraction ∧ f.lowest < exponent then 1 else 2
  let scale (x : Nat) : Nat := if 2 ≤ exponent then x * Nat.pow 2 (exponent - 2).toNat else x
  ⟨scale (4 * significand - below), scale (4 * significand), scale (4 * significand + 2),
    if 2 ≤ exponent then 1 else Nat.pow 2 (2 - exponent).toNat, decide (significand % 2 = 0)⟩

/-- Whether `candidate` times ten to the `exponent` rounds to the number. -/
def Span.holds (s : Span) (candidate : Nat) (exponent : Int) : Bool :=
  let (num, den) := shifted candidate 1 exponent
  if s.closed then decide (s.low * den ≤ num * s.denominator ∧ num * s.denominator ≤ s.high * den)
  else decide (s.low * den < num * s.denominator ∧ num * s.denominator < s.high * den)

/-- The exponent of the digit before the first one. -/
def Span.magnitude (s : Span) : Int :=
  (length (s.value * Nat.pow 10 reach / s.denominator) : Int) - reach

/-- The nearer of the two neighbours on the grid of this exponent that reads back, the upper one on
a tie. -/
def Span.onGrid? (s : Span) (exponent : Int) : Option Scaled :=
  let (num, den) := shifted s.value s.denominator (-exponent)
  let below := num / den
  let lower := s.holds below exponent
  let upper := s.holds (below + 1) exponent
  if upper && (!lower || decide (den ≤ 2 * (num % den))) then some ⟨below + 1, exponent⟩
  else if lower then some ⟨below, exponent⟩
  else none

/-- The first hit on grids of one digit, two digits and so on. -/
def Span.shortest (s : Span) : Scaled :=
  ((List.range 17).findSome? fun n => s.onGrid? (s.magnitude - (n + 1 : Nat))).getD ⟨s.value, 0⟩

/-- Drops zeros at the end of the digits. -/
def Scaled.normal (fuel : Nat) (d : Scaled) : Scaled :=
  match fuel with
  | 0 => d
  | fuel + 1 =>
    if d.digits ≠ 0 ∧ d.digits % 10 = 0 then Scaled.normal fuel ⟨d.digits / 10, d.exponent + 1⟩
    else d

def zeros (n : Nat) : List UInt8 := List.replicate n 0x30

/-- Digits with a point before the last `places` of them, at least one digit before the point. -/
def pointed (digits : List UInt8) (places : Nat) : List UInt8 :=
  let padded := zeros (places + 1 - digits.length) ++ digits
  if places = 0 then padded
  else padded.take (padded.length - places) ++ 0x2e :: padded.drop (padded.length - places)

def Scaled.write (d : Scaled) : List UInt8 :=
  let digits := Integer.digits 10 d.digits
  if 0 ≤ d.exponent then digits ++ zeros d.exponent.toNat else pointed digits (-d.exponent).toNat

def signed (negative : Bool) (text : List UInt8) : List UInt8 :=
  if negative then Byte.minus :: text else text

/-- The texts of the two kinds of datum that have no digits. -/
def nanText : List UInt8 := Text.Utf8.encode "NaN"

def infinityText : List UInt8 := Text.Utf8.encode "inf"

/-- The fewest digits that read back as the number; nearest of those, the upper one on a tie. -/
def shortest (f : Format) : Datum → List UInt8
  | .nan => nanText
  | .infinite negative => signed negative infinityText
  | .finite negative significand exponent =>
    signed negative
      (if significand = 0 then zeros 1
       else (Scaled.normal 17 (Span.ofFinite f significand exponent).shortest).write)

/-- The exact value rounded to a number of places, ties to the even digit. A number whose last bit
weighs two to the power `-k` has at most `k` places, after which only zeros follow. -/
def fixed (places : Nat) : Datum → List UInt8
  | .nan => nanText
  | .infinite negative => signed negative infinityText
  | .finite negative significand exponent =>
    let (num, den) := scaled significand 1 (-exponent)
    let kept := min places (-exponent).toNat
    let digits := Integer.digits 10 (roundDiv (num * Nat.pow 10 kept) den)
    signed negative (pointed (digits ++ zeros (places - kept)) places)

/-- The value of a run of decimal digits. -/
def ofDigits (digits : List UInt8) : Nat :=
  digits.foldl (fun n b => 10 * n + (b.toNat - 0x30)) 0

def isZeroDigit (b : UInt8) : Bool := b == 0x30

/-- How many digits, from the first that is not zero, count with their value. A number of the
formats, or the middle between two of them, has fewer than 770 digits, so of the digits after
these it only matters whether one is not zero. -/
def decisive : Nat := 800

/-- The number that digits write, with every digit that can decide how it is rounded. -/
def Scaled.ofDigits (digits : List UInt8) (exponent : Int) : Scaled :=
  let counted := digits.dropWhile isZeroDigit
  let low := counted.drop decisive
  let high := Decimal.ofDigits (counted.take decisive)
  if low.all isZeroDigit then ⟨high, exponent + low.length⟩
  else ⟨10 * high + 1, exponent + low.length - 1⟩

/-- An exponent of this size takes no more digits. -/
def exponentLimit : Nat := 0x10000

/-- The size of an exponent, whose digits count until the limit is reached. -/
def exponentSize (digits : List UInt8) : Nat :=
  digits.foldl (fun n b => if n < exponentLimit then 10 * n + (b.toNat - 0x30) else n) 0

/-- The signed value of an exponent field, which needs a digit. -/
def exponent? (text : List UInt8) : Option Int :=
  let (negative, digits) := Integer.splitSign text
  if digits.isEmpty || !digits.all Byte.isDigit then none
  else some (if negative then -(exponentSize digits : Int) else (exponentSize digits : Int))

/-- A decimal literal without sign: digits with at most one point, at least one digit, and an
optional exponent. -/
def literal? (text : List UInt8) : Option Scaled :=
  let whole := text.takeWhile Byte.isDigit
  let afterWhole := text.drop whole.length
  let pointed := afterWhole.head? == some 0x2e
  let part := if pointed then (afterWhole.drop 1).takeWhile Byte.isDigit else []
  let rest := afterWhole.drop (if pointed then part.length + 1 else 0)
  if whole.isEmpty && part.isEmpty then none
  else
    let base := Scaled.ofDigits (whole ++ part) (-(part.length : Int))
    match rest with
    | [] => some base
    | mark :: field =>
      if Byte.toLower mark = 0x65 then
        (exponent? field).map fun e => ⟨base.digits, base.exponent + e⟩
      else none

/-- The word nearest to a decimal number; out of reach it is infinite or zero. -/
def Scaled.toWord (f : Format) (d : Scaled) : Nat :=
  let top := (length d.digits : Int) + d.exponent
  if d.digits = 0 then 0
  else if (reach : Int) < top then f.infinity
  else if top < -(reach : Int) then 0
  else
    let (num, den) := shifted d.digits 1 d.exponent
    ofRatio f num den

/-- What a float text names. -/
inductive Named where
  | nan
  | word (value : Nat)

/-- Why a text is not a float. -/
inductive Malformed where
  | empty
  | invalid
  deriving DecidableEq, Repr

def Malformed.message : Malformed → String
  | .empty => Integer.emptyMessage
  | .invalid => "invalid floating-point number"

/-- An unsigned float text: a literal, or one of three names in any case. -/
def unsigned? (f : Format) (text : List UInt8) : Option Named :=
  let small := text.map Byte.toLower
  if small = Text.Utf8.encode "nan" then some .nan
  else if small = Text.Utf8.encode "inf" ∨ small = Text.Utf8.encode "infinity" then
    some (.word f.infinity)
  else (literal? text).map fun d => .word (d.toWord f)

/-- The float that a text writes, blanks around it ignored. -/
def read (f : Format) (text : List UInt8) : Except Malformed Named :=
  let body := Text.Spacing.trim text
  if body.isEmpty then .error .empty
  else
    let (negative, rest) := Integer.splitSign body
    match unsigned? f rest with
    | none => .error .invalid
    | some .nan => .ok .nan
    | some (.word w) => .ok (.word (if negative then f.sign + w else w))

end ByteFlow.Number.Decimal
