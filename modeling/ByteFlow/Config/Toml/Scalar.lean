import ByteFlow.Config.Toml.Tree
import ByteFlow.Number.Decimal

/-! The smallest parts of a configuration text: blanks, texts, keys, numbers and dates.
A reader answers with what it read, if that matters, and what follows it. -/
namespace ByteFlow.Config.Toml

def isSpace (c : Char) : Bool := c == ' ' || c == '\t'

def skipSpace (cs : List Char) : List Char := cs.dropWhile isSpace

def isControl (c : Char) : Bool := (c.toNat < 0x20 && c != '\t') || c.toNat == 0x7f

/-- What follows the end of a line; the end of the text ends a line. -/
def newline? : List Char → Option (List Char)
  | [] => some []
  | '\n' :: rest => some rest
  | '\r' :: '\n' :: rest => some rest
  | _ => none

/-- What follows the end of a line before which there may be blanks and a comment. -/
def endLine? (cs : List Char) : Option (List Char) :=
  match skipSpace cs with
  | '#' :: comment => newline? (comment.dropWhile fun c => !isControl c)
  | rest => newline? rest

/-! Texts -/

/-- A one-line text after its opening quote. -/
def literal? : List Char → Option (List Char × List Char)
  | [] => none
  | '\'' :: rest => some ([], rest)
  | c :: rest => if isControl c then none else (literal? rest).map fun (s, r) => (c :: s, r)

/-- The character of a code point that is written in hexadecimal digits. -/
def scalar? (digits : List Char) : Option Char := do
  let n ← digits.foldlM (fun n c => (Byte.digitIn? 16 (UInt8.ofNat (min c.toNat 0xff))).map
    fun d => 16 * n + d) 0
  if n.isValidChar then some (Char.ofNat n) else none

/-- What a letter after a backslash stands for. -/
def escaped? (letter : Char) : Option Char :=
  ([('b', 8), ('t', 9), ('n', 10), ('f', 12), ('r', 13), ('"', 0x22), ('\\', 0x5c)].lookup
    letter).map Char.ofNat

/-- A one-line text with escapes after its opening quote. -/
def basic? : List Char → Option (List Char × List Char)
  | [] => none
  | '"' :: rest => some ([], rest)
  | '\\' :: 'u' :: a :: b :: c :: d :: rest => do
    let ch ← scalar? [a, b, c, d]
    let (s, r) ← basic? rest
    return (ch :: s, r)
  | '\\' :: 'U' :: a :: b :: c :: d :: e :: f :: g :: h :: rest => do
    let ch ← scalar? [a, b, c, d, e, f, g, h]
    let (s, r) ← basic? rest
    return (ch :: s, r)
  | '\\' :: letter :: rest => do
    let ch ← escaped? letter
    let (s, r) ← basic? rest
    return (ch :: s, r)
  | c :: rest => if isControl c then none else (basic? rest).map fun (s, r) => (c :: s, r)

/-- What follows three quotes that end a text; up to two more before them belong to the text. -/
def dropQuotes (quote : Char) (rest : List Char) : List Char :=
  rest.drop ((rest.take 2).takeWhile (· == quote)).length

/-- What follows a text over several lines after its opening quotes. -/
def longLiteral? : List Char → Option (List Char)
  | [] => none
  | '\'' :: '\'' :: '\'' :: rest => some (dropQuotes '\'' rest)
  | '\n' :: rest => longLiteral? rest
  | '\r' :: '\n' :: rest => longLiteral? rest
  | c :: rest => if isControl c then none else longLiteral? rest

/-- Whether a backslash before these characters joins the line to the next one. -/
def joinsLines (cs : List Char) : Bool :=
  match skipSpace cs with
  | [] => false
  | rest => (newline? rest).isSome

/-- What follows a text with escapes over several lines after its opening quotes. -/
def longBasic? : List Char → Option (List Char)
  | [] => none
  | '"' :: '"' :: '"' :: rest => some (dropQuotes '"' rest)
  | '\n' :: rest => longBasic? rest
  | '\r' :: '\n' :: rest => longBasic? rest
  | '\\' :: 'u' :: a :: b :: c :: d :: rest =>
    if (scalar? [a, b, c, d]).isSome then longBasic? rest else none
  | '\\' :: 'U' :: a :: b :: c :: d :: e :: f :: g :: h :: rest =>
    if (scalar? [a, b, c, d, e, f, g, h]).isSome then longBasic? rest else none
  | '\\' :: '\r' :: '\n' :: rest => longBasic? rest
  | '\\' :: c :: rest =>
    if (escaped? c).isSome || joinsLines (c :: rest) then longBasic? rest else none
  | c :: rest => if isControl c then none else longBasic? rest

/-! Keys -/

def isBare (c : Char) : Bool := c.isAlphanum || c == '_' || c == '-'

/-- One key. -/
def simpleKey? : List Char → Option (String × List Char)
  | '"' :: rest => (basic? rest).map fun (s, r) => (String.ofList s, r)
  | '\'' :: rest => (literal? rest).map fun (s, r) => (String.ofList s, r)
  | cs =>
    let name := cs.takeWhile isBare
    if name.isEmpty then none else some (String.ofList name, cs.drop name.length)

/-- Keys with dots between them, fewer than `limit`. -/
def path? (limit : Nat) (cs : List Char) : Option (List String × List Char) :=
  match limit with
  | 0 | 1 => none
  | limit + 1 => do
    let (name, rest) ← simpleKey? (skipSpace cs)
    match skipSpace rest with
    | '.' :: rest =>
      let (path, rest) ← path? limit rest
      return (name :: path, rest)
    | rest => return ([name], rest)

/-! Numbers -/

/-- Digits of a class with single underscores between them. -/
def digits? (isDigit : Char → Bool) (cs : List Char) : Option (List Char) :=
  let runs := cs.splitOn '_'
  if runs.all fun run => !run.isEmpty && run.all isDigit then some runs.flatten else none

def isOctal (c : Char) : Bool := '0' ≤ c && c ≤ '7'

def isBinary (c : Char) : Bool := c == '0' || c == '1'

def isHex (c : Char) : Bool := c.isDigit || ('a' ≤ c && c ≤ 'f') || ('A' ≤ c && c ≤ 'F')

/-- The value of digits of a base. -/
def ofDigits (base : Nat) (cs : List Char) : Nat :=
  cs.foldl (fun n c => base * n + ((Byte.digitValue? (UInt8.ofNat c.toNat)).getD 0)) 0

/-- Decimal digits without a leading zero. -/
def decimal? (cs : List Char) : Option Nat := do
  let ds ← digits? Char.isDigit cs
  if ds.head? = some '0' ∧ ds.length ≠ 1 then none else some (ofDigits 10 ds)

def splitSign : List Char → Bool × List Char
  | '-' :: rest => (true, rest)
  | '+' :: rest => (false, rest)
  | cs => (false, cs)

/-- An integer of 64 bits. -/
def integer? (token : List Char) : Option Int := do
  let n : Int ← match token with
    | '0' :: 'x' :: cs => (digits? isHex cs).map fun ds => (ofDigits 16 ds : Int)
    | '0' :: 'o' :: cs => (digits? isOctal cs).map fun ds => (ofDigits 8 ds : Int)
    | '0' :: 'b' :: cs => (digits? isBinary cs).map fun ds => (ofDigits 2 ds : Int)
    | cs =>
      let (negative, rest) := splitSign cs
      (decimal? rest).map fun n => if negative then -(n : Int) else (n : Int)
  if -0x8000000000000000 ≤ n ∧ n < 0x8000000000000000 then some n else none

/-- Whether digits with a point or an exponent among them are written as they have to be. -/
def isPointed (cs : List Char) : Bool :=
  let mantissa := cs.takeWhile fun c => c != 'e' && c != 'E'
  let field := cs.drop mantissa.length
  let whole := mantissa.takeWhile (· != '.')
  let part := mantissa.drop whole.length
  (decimal? whole).isSome && !(part.isEmpty && field.isEmpty) &&
    (part.isEmpty || (digits? Char.isDigit (part.drop 1)).isSome) &&
    (field.isEmpty || (digits? Char.isDigit (splitSign (field.drop 1)).2).isSome)

/-- Whether digits name a number too large for a double. -/
def isTooLarge (cs : List Char) : Bool :=
  let text := (cs.filter (· != '_')).map fun c => UInt8.ofNat c.toNat
  match Number.Decimal.unsigned? .double text with
  | some (.word w) => w == Number.Binary.Format.double.infinity
  | _ => false

/-- Whether a token is one of the two special words, or digits with a point or an exponent. A number
too large for a double is refused, a negative one so large is not. -/
def isFraction (token : List Char) : Bool :=
  let (negative, cs) := splitSign token
  cs == ['i', 'n', 'f'] || cs == ['n', 'a', 'n'] ||
    (isPointed cs && (negative || !isTooLarge cs))

/-! Dates -/

/-- A number of two digits within bounds, and what follows it. -/
def pair? (low high : Nat) : List Char → Option (Nat × List Char)
  | a :: b :: rest =>
    let n := ofDigits 10 [a, b]
    if a.isDigit && b.isDigit && low ≤ n && n ≤ high then some (n, rest) else none
  | _ => none

/-- What follows a separator. -/
def after? (mark : Char) : List Char → Option (List Char)
  | [] => none
  | c :: rest => if c = mark then some rest else none

/-- What follows a time of day; a second may be the leap second. -/
def time? (cs : List Char) : Option (List Char) := do
  let (_, rest) ← pair? 0 23 cs
  let (_, rest) ← pair? 0 59 (← after? ':' rest)
  let (_, rest) ← pair? 0 60 (← after? ':' rest)
  match rest with
  | '.' :: d :: part => if d.isDigit then some (part.dropWhile Char.isDigit) else some rest
  | _ => some rest

/-- What follows a distance from universal time, if there is one. -/
def skipOffset : List Char → List Char
  | [] => []
  | c :: rest =>
    if c = 'Z' ∨ c = 'z' then rest
    else if c = '+' ∨ c = '-' then
      ((do
        let (_, rest) ← pair? 0 23 rest
        let (_, rest) ← pair? 0 59 (← after? ':' rest)
        return rest : Option (List Char))).getD (c :: rest)
    else c :: rest

def isLeapYear (year : Nat) : Bool := year % 4 == 0 && (year % 100 != 0 || year % 400 == 0)

def daysIn (year month : Nat) : Nat :=
  if month = 2 then if isLeapYear year then 29 else 28
  else if [4, 6, 9, 11].contains month then 30 else 31

/-- What follows a day of the calendar. -/
def day? (cs : List Char) : Option (List Char) := do
  let (century, rest) ← pair? 0 99 cs
  let (year, rest) ← pair? 0 99 rest
  let (month, rest) ← pair? 1 12 (← after? '-' rest)
  let (_, rest) ← pair? 1 (daysIn (100 * century + year) month) (← after? '-' rest)
  return rest

/-- What follows a day, a time of day, or both, the latter perhaps with a distance from universal
time. -/
def date? (cs : List Char) : Option (List Char) :=
  match day? cs with
  | none => time? cs
  | some [] => some []
  | some (c :: rest) =>
    if c = 'T' ∨ c = 't' ∨ c = ' ' then
      match time? rest with
      | some rest => some (skipOffset rest)
      | none => some (c :: rest)
    else some (c :: rest)

end ByteFlow.Config.Toml
