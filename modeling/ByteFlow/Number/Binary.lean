/-! Binary floating-point formats: a sign, an exponent and a fraction packed into a word.
Values are exact; a ratio is rounded to the nearest one, ties to the even one. -/
namespace ByteFlow.Number.Binary

/-- Widths of the two fields below the sign. -/
structure Format where
  fraction : Nat
  exponent : Nat

def Format.double : Format := ⟨52, 11⟩

def Format.single : Format := ⟨23, 8⟩

/-- What a word stands for; a finite datum is its significand times a power of two. -/
inductive Datum where
  | nan
  | infinite (negative : Bool)
  | finite (negative : Bool) (significand : Nat) (exponent : Int)

/-- The exponent of the last place of the smallest numbers. -/
def Format.lowest (f : Format) : Int := 2 - (Nat.pow 2 (f.exponent - 1) : Int) - (f.fraction : Int)

/-- The word of positive infinity. -/
def Format.infinity (f : Format) : Nat := (Nat.pow 2 f.exponent - 1) * Nat.pow 2 f.fraction

/-- The weight of the sign bit. -/
def Format.sign (f : Format) : Nat := Nat.pow 2 (f.fraction + f.exponent)

def decode (f : Format) (word : Nat) : Datum :=
  let negative := decide (word / f.sign % 2 = 1)
  let biased := word / Nat.pow 2 f.fraction % Nat.pow 2 f.exponent
  let fraction := word % Nat.pow 2 f.fraction
  if biased = Nat.pow 2 f.exponent - 1 then
    if fraction = 0 then .infinite negative else .nan
  else if biased = 0 then .finite negative fraction f.lowest
  else .finite negative (fraction + Nat.pow 2 f.fraction) (f.lowest + (biased - 1))

/-- The quotient rounded to the nearest integer, ties to the even one. -/
def roundDiv (num den : Nat) : Nat :=
  let q := num / den
  let r := num % den
  if 2 * r < den then q
  else if den < 2 * r then q + 1
  else q + q % 2

/-- Numerator and denominator of a ratio divided by a power of two. -/
def scaled (num den : Nat) (exponent : Int) : Nat × Nat :=
  if 0 ≤ exponent then (num, den * Nat.pow 2 exponent.toNat)
  else (num * Nat.pow 2 (-exponent).toNat, den)

/-- The exponent of the last place of the numbers around a positive ratio. -/
def lastPlace (f : Format) (num den : Nat) : Int :=
  let guess : Int := (num.log2 : Int) - den.log2 - f.fraction
  let (a, b) := scaled num den guess
  max f.lowest (if a < b * Nat.pow 2 f.fraction then guess - 1 else guess)

/-- The word of the number nearest to a ratio. -/
def ofRatio (f : Format) (num den : Nat) : Nat :=
  if num = 0 then 0
  else
    let e := lastPlace f num den
    let (a, b) := scaled num den e
    min f.infinity ((e - f.lowest).toNat * Nat.pow 2 f.fraction + roundDiv a b)

end ByteFlow.Number.Binary
