import ByteFlow.Config.Basic
import ByteFlow.Text.Blank
import ByteFlow.Text.Quoted

/-! Parameters from environment variables, taken in a fixed order until one is malformed.
A variable whose value is not text counts as not set. -/
namespace ByteFlow.Config

/-- The value of each variable that is set. -/
abbrev Environment := String → Option (List UInt8)

/-- A variable that holds something else than expected. -/
structure Malformed where
  name : String
  expected : String
  value : String
  deriving DecidableEq, Repr

def Malformed.message (m : Malformed) : String :=
  "invalid value for " ++ m.name ++ ": expected " ++ m.expected ++ ", got " ++
    Text.Quoted.text m.value

/-- A size in decimal digits after an optional plus sign. -/
def size? (value : String) : Option Nat :=
  let trimmed := Text.trimChars value.toList
  let digits := if trimmed.head? = some '+' then trimmed.drop 1 else trimmed
  if digits.isEmpty || !digits.all Char.isDigit then none
  else
    let n := digits.foldl (fun n c => 10 * n + (c.toNat - 0x30)) 0
    if n ≤ Word.maxValue then some n else none

/-- A yes or a no in one of four words each, in any case. -/
def flag? (value : String) : Option Bool :=
  let word := String.ofList ((Text.trimChars value.toList).map Char.toLower)
  if ["true", "1", "yes", "on"].contains word then some true
  else if ["false", "0", "no", "off"].contains word then some false
  else none

/-- One variable: how its value is read and what it sets. -/
structure Variable where
  name : String
  expected : String
  set? : String → Config → Option Config

/-- The variables in the order in which they are taken. -/
def allVariables : List Variable :=
  [⟨"IOCORE_BUFFER_SIZE", "unsigned integer",
      fun s c => (size? s).map fun n => { c with bufferSize := n }⟩,
    ⟨"IOCORE_CHUNK_SIZE", "unsigned integer",
      fun s c => (size? s).map fun n => { c with chunkSize := n }⟩,
    ⟨"IOCORE_WRITE_CHUNK_SIZE", "unsigned integer",
      fun s c => (size? s).map fun n => { c with writeChunkSize := n }⟩,
    ⟨"IOCORE_CRLF_ON_WRITE", "bool (true/false/1/0/yes/no)",
      fun s c => (flag? s).map fun b => { c with crlfOnWrite := b }⟩]

/-- Takes variables one by one; the first malformed one ends it, and what came before stays. -/
def applyVariables (env : Environment) (c : Config) : List Variable → Option Malformed × Config
  | [] => (none, c)
  | v :: rest =>
    match (env v.name).bind Text.Utf8.decode? with
    | none => applyVariables env c rest
    | some value =>
      match v.set? value c with
      | some c => applyVariables env c rest
      | none => (some ⟨v.name, v.expected, value⟩, c)

/-- The parameters with the environment's overrides, and what ended them early. -/
def applyEnvironment (env : Environment) (c : Config) : Option Malformed × Config :=
  applyVariables env c allVariables

end ByteFlow.Config
