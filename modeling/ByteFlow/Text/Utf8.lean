/-! UTF-8: which byte sequences are text, and the text they are.
Reading and writing are inverse; a sequence that is not UTF-8 has no text. -/
namespace ByteFlow.Text.Utf8

/-- The text that the bytes encode, if they are UTF-8. -/
def decode? (bytes : List UInt8) : Option String := String.fromUTF8? ⟨bytes.toArray⟩

def encode (text : String) : List UInt8 := text.toUTF8.data.toList

def isValid (bytes : List UInt8) : Bool := (decode? bytes).isSome

end ByteFlow.Text.Utf8
