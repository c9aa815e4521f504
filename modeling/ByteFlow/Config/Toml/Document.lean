import ByteFlow.Config.Toml.Scalar

/-! Configuration texts as a whole: values, lines and headers.
A text is refused as a whole if it breaks the grammar, defines something twice or nests too deep. -/
namespace ByteFlow.Config.Toml

/-- Brackets nest less deep than this, and paths of keys are shorter. -/
def depthLimit : Nat := 80

def isToken (c : Char) : Bool := isBare c || c == '+' || c == '.' || c == ':'

/-- A date, or a word of letters, digits and signs. -/
def scalarValue? (cs : List Char) : Option (Value × List Char) :=
  match date? cs with
  | some rest => some (.date, rest)
  | none =>
    let token := cs.takeWhile isToken
    let rest := cs.drop token.length
    if token = "true".toList then some (.boolean true, rest)
    else if token = "false".toList then some (.boolean false, rest)
    else match integer? token with
      | some n => some (.integer n, rest)
      | none => if isFraction token then some (.other, rest) else none

/-- Blanks, comments and line ends inside an array. -/
def skipLines (fuel : Nat) (cs : List Char) : List Char :=
  match fuel with
  | 0 => cs
  | fuel + 1 =>
    match skipSpace cs with
    | [] => []
    | rest =>
      match endLine? rest with
      | some rest => skipLines fuel rest
      | none => rest

mutual

/-- A value, inside of `depth` pairs of brackets, and what follows it. -/
def value? (fuel depth : Nat) (cs : List Char) : Option (Value × List Char) :=
  match fuel with
  | 0 => none
  | fuel + 1 =>
    match cs with
    | '"' :: '"' :: '"' :: rest => (longBasic? rest).map fun r => (.other, r)
    | '\'' :: '\'' :: '\'' :: rest => (longLiteral? rest).map fun r => (.other, r)
    | '"' :: rest => (basic? rest).map fun (_, r) => (.other, r)
    | '\'' :: rest => (literal? rest).map fun (_, r) => (.other, r)
    | cs =>
      if cs.head? = some '[' then
        if depthLimit ≤ depth + 1 then none
        else (items? fuel (depth + 1) (cs.drop 1)).map fun (vs, r) => (.array vs, r)
      else if cs.head? = some '\x7b' then
        if depthLimit ≤ depth + 1 then none
        else
          match skipSpace (cs.drop 1) with
          | [] => none
          | c :: rest =>
            if c = '\x7d' then some (.table .braces [], rest)
            else (pairs? fuel (depth + 1) [] (c :: rest)).map fun (es, r) => (.table .braces es, r)
      else scalarValue? cs

/-- The items of an array after its opening bracket or a comma, and what follows it. -/
def items? (fuel depth : Nat) (cs : List Char) : Option (List Value × List Char) :=
  match fuel with
  | 0 => none
  | fuel + 1 =>
    match skipLines (cs.length + 1) cs with
    | ']' :: rest => some ([], rest)
    | cs => do
      let (v, rest) ← value? fuel depth cs
      match skipLines (rest.length + 1) rest with
      | ',' :: rest =>
        let (vs, rest) ← items? fuel depth rest
        return (v :: vs, rest)
      | ']' :: rest => return ([v], rest)
      | _ => none

/-- The entries of a table in braces, and what follows it. -/
def pairs? (fuel depth : Nat) (entries : Entries) (cs : List Char) :
    Option (Entries × List Char) :=
  match fuel with
  | 0 => none
  | fuel + 1 => do
    let (path, rest) ← path? depthLimit cs
    match rest with
    | '=' :: rest =>
      let (v, rest) ← value? fuel depth (skipSpace rest)
      let entries ← assign v true path entries
      match skipSpace rest with
      | ',' :: rest => pairs? fuel depth entries rest
      | c :: rest => if c = '\x7d' then some (entries, rest) else none
      | [] => none
    | _ => none

end

/-- A header's path and what follows its line; `close` is what ends the path. -/
def header? (close cs : List Char) : Option (List String × List Char) := do
  let (path, rest) ← path? depthLimit cs
  if rest.take close.length = close then
    let rest ← endLine? (rest.drop close.length)
    return (path, rest)
  else none

/-- Reads line after line; `here` is the path of the table that the last header opened. -/
def lines? (fuel : Nat) (here : List String) (root : Entries) (cs : List Char) : Option Entries :=
  match fuel with
  | 0 => none
  | fuel + 1 =>
    match skipSpace cs with
    | [] => some root
    | '[' :: '[' :: rest => do
      let (path, rest) ← header? [']', ']'] rest
      lines? fuel path (← openTable openItem path root) rest
    | '[' :: rest => do
      let (path, rest) ← header? [']'] rest
      lines? fuel path (← openTable openHeader path root) rest
    | cs =>
      match endLine? cs with
      | some rest => lines? fuel here root rest
      | none => do
        let (path, rest) ← path? depthLimit cs
        match rest with
        | '=' :: rest =>
          let (v, rest) ← value? (cs.length + 1) 0 (skipSpace rest)
          let rest ← endLine? rest
          lines? fuel here (← atTable (assign v true path) here root) rest
        | _ => none

/-- The text without a byte order mark at its start. -/
def dropMark : List Char → List Char
  | '\ufeff' :: rest => rest
  | cs => cs

/-- The tables and values of a text. -/
def parse? (text : String) : Option Entries := lines? (text.length + 2) [] [] (dropMark text.toList)

end ByteFlow.Config.Toml
