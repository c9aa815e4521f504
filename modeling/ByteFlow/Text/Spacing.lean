import ByteFlow.Byte

/-! Blank bytes around and between words.
A text is simplified when its words are joined by single spaces; one pass over it gets there. -/
namespace ByteFlow.Text.Spacing

/-- How many blanks a text begins with. -/
def leading (s : List UInt8) : Nat := (s.takeWhile Byte.isBlank).length

/-- Where a text ends once its trailing blanks are dropped, but not before its first other byte. -/
def contentEnd (s : List UInt8) : Nat :=
  max (leading s) (s.length - (s.reverse.takeWhile Byte.isBlank).length)

/-- A text without the blanks at its ends. -/
def trim (s : List UInt8) : List UInt8 := (s.take (contentEnd s)).drop (leading s)

/-- The maximal runs of bytes that are not blank; `word` is the run being read, backwards. -/
def wordsFrom (word : List UInt8) : List UInt8 → List (List UInt8)
  | [] => if word.isEmpty then [] else [word.reverse]
  | b :: rest =>
    if Byte.isBlank b then
      if word.isEmpty then wordsFrom [] rest else word.reverse :: wordsFrom [] rest
    else wordsFrom (b :: word) rest

def words (s : List UInt8) : List (List UInt8) := wordsFrom [] s

/-- The words of a text with one space between them. -/
def joinWords (s : List UInt8) : List UInt8 := List.intercalate [Byte.space] (words s)

/-- Whether every blank inside is one space before a byte that is not blank. -/
def spacedSingly : List UInt8 → Bool
  | a :: b :: rest =>
    (!Byte.isBlank a || (a == Byte.space && !Byte.isBlank b)) && spacedSingly (b :: rest)
  | _ => true

def isSimplified (s : List UInt8) : Bool :=
  leading s == 0 && contentEnd s == s.length && spacedSingly s

/-- Where a simplifying pass stands: the bytes of `buffer` before `filled` are final, and a space is
owed if a blank was seen since the last of them. -/
structure Pass where
  buffer : Array UInt8
  filled : Nat
  owed : Bool

/-- Takes the byte at `index`, which lies at or after everything written so far. -/
def Pass.accept (p : Pass) (index : Nat) : Pass :=
  match p.buffer[index]? with
  | none => p
  | some b =>
    if Byte.isBlank b then { p with owed := decide (0 < p.filled) }
    else if p.owed then
      ⟨(p.buffer.setIfInBounds p.filled Byte.space).setIfInBounds (p.filled + 1) b,
        p.filled + 2, false⟩
    else ⟨p.buffer.setIfInBounds p.filled b, p.filled + 1, false⟩

/-- The simplified text, gathered at the front of the buffer that held the text. -/
def simplify (s : List UInt8) : List UInt8 :=
  let p := (List.range s.length).foldl Pass.accept ⟨s.toArray, 0, false⟩
  p.buffer.toList.take p.filled

end ByteFlow.Text.Spacing
