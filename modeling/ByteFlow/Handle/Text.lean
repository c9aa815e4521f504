import ByteFlow.Codec.Percent
import ByteFlow.Handle.Edit
import ByteFlow.Search.Find
import ByteFlow.Text.Spacing

/-! Text operations on handles, each in two forms: one leaves the handle alone and shares its
storage when nothing changes, the other uses up the handle and works in place if it is detached. -/
namespace ByteFlow.Handle

/-- A changed copy, or the handle itself if nothing changes. -/
def copyUnless (held : List StorageId) (same : Bool) (bytes : List UInt8) (h : Handle) : Handle :=
  if same then h else ofList (h.id?.toList ++ held) bytes

def isLower (h : Handle) : Bool := !h.content.any Byte.isUpper

def isUpper (h : Handle) : Bool := !h.content.any Byte.isLower

def toLower (held : List StorageId) (h : Handle) : Handle :=
  h.copyUnless held h.isLower (h.content.map Byte.toLower)

def toUpper (held : List StorageId) (h : Handle) : Handle :=
  h.copyUnless held h.isUpper (h.content.map Byte.toUpper)

def intoLower (held : List StorageId) (h : Handle) : Handle :=
  if h.isDetached held then h.edit held h.length (List.map Byte.toLower) else h.toLower held

def intoUpper (held : List StorageId) (h : Handle) : Handle :=
  if h.isDetached held then h.edit held h.length (List.map Byte.toUpper) else h.toUpper held

/-- The view without blanks at its ends. -/
def trimmed (h : Handle) : Handle :=
  let start := Text.Spacing.leading h.content
  h.mid start (some (Text.Spacing.contentEnd h.content - start))

def intoTrimmed (held : List StorageId) (h : Handle) : Handle :=
  if h.isDetached held then h.edit held h.length Text.Spacing.trim else h.trimmed

/-- Words with single spaces between them. The words are put together in a copy of the content, so
a changed result keeps room for all of it. -/
def simplified (held : List StorageId) (h : Handle) : Handle :=
  if Text.Spacing.isSimplified h.content then h
  else
    let words := Text.Spacing.simplify h.content
    if words.isEmpty then empty else allocate (h.id?.toList ++ held) h.length words

def intoSimplified (held : List StorageId) (h : Handle) : Handle :=
  if !h.isDetached held then h.simplified held
  else if Text.Spacing.isSimplified h.content then h
  else h.edit held h.length Text.Spacing.simplify

/-- The handle itself if it has the width, or its first bytes if it may be cut. -/
def whenWide (h : Handle) (width : Nat) (cut : Bool) : Handle := if cut then h.left width else h

/-- Filled up on the right to a width. -/
def leftJustified (held : List StorageId) (width : Nat) (b : UInt8) (cut : Bool) (h : Handle) :
    Handle :=
  if width ≤ h.length then h.whenWide width cut
  else ofList (h.id?.toList ++ held) (h.content ++ List.replicate (width - h.length) b)

/-- Filled up on the left to a width; the bytes come behind what fills a storage of its own. -/
def rightJustified (held : List StorageId) (width : Nat) (b : UInt8) (cut : Bool) (h : Handle) :
    Handle :=
  if width ≤ h.length then h.whenWide width cut
  else
    allocate (h.id?.toList ++ held) (Storage.grown (width - h.length) width)
      (List.replicate (width - h.length) b ++ h.content)

def repeated (held : List StorageId) (n : Nat) (h : Handle) : Handle :=
  if n = 1 then h
  else if n = 0 ∨ h.isEmpty then empty
  else ofList (h.id?.toList ++ held) (List.replicate n h.content).flatten

/-- The pieces between separators from `start` on. -/
def splitFrom (h : Handle) (separator : UInt8) (start : Nat) : List Handle :=
  match Search.indexOfByte h.content separator start with
  | none => [h.mid start none]
  | some i =>
    h.mid start (some (i - start)) ::
      (if _h : start ≤ i ∧ i < h.length then h.splitFrom separator (i + 1) else [])
termination_by h.length - start

/-- The pieces between separators, empty ones included. -/
def split (h : Handle) (separator : UInt8) : List Handle := h.splitFrom separator 0

/-- Escaped text, in room for three bytes each; the handle itself if all bytes are kept. -/
def toPercent (held : List StorageId) (rule : Codec.Percent.Rule) (h : Handle) : Handle :=
  if h.content.all rule.keeps then h
  else allocate (h.id?.toList ++ held) (3 * h.length) (Codec.Percent.encode rule h.content)

/-- Byte by byte; of two that agree as far as they go the shorter comes first. -/
def order (a b : Handle) : Ordering := compare a.content b.content

end ByteFlow.Handle
