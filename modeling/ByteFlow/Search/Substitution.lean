import ByteFlow.Search.Matcher

/-! Replacing every occurrence of a pattern, from the left and without overlap.
The matcher finds the occurrences; the plain definition beside it walks the text byte by byte. -/
namespace ByteFlow.Search

/-- The pieces of the text from `start` on with the occurrences replaced, `hit` being the next one:
what lies before an occurrence, what is put in its stead, and the rest behind the last one. -/
def piecesFrom (m : Matcher) (text : Array UInt8) (after : List UInt8) (start hit : Nat) :
    List (List UInt8) :=
  let next := hit + m.pattern.length
  (text.extract start hit).toList :: after ::
    match m.indexIn text next with
    | none => [(text.extract next text.size).toList]
    | some i =>
      if _h : start < next ∧ next ≤ i ∧ start < text.size then piecesFrom m text after next i
      else []
termination_by text.size - start

/-- The pieces of the text with every occurrence replaced, if there is any. -/
def replaceAll? (text before after : List UInt8) : Option (List (List UInt8)) :=
  if before.isEmpty || text.length < before.length then none
  else
    let m := Matcher.ofPattern before
    (m.indexIn text.toArray 0).map fun i => piecesFrom m text.toArray after 0 i

/-- Replaces the pattern wherever the rest of the text begins with it. -/
def substitute (before after : List UInt8) (text : List UInt8) : List UInt8 :=
  match text with
  | [] => []
  | b :: rest =>
    if before ≠ [] ∧ before.isPrefixOf (b :: rest) then
      after ++ substitute before after ((b :: rest).drop (max 1 before.length))
    else b :: substitute before after rest
termination_by text.length
decreasing_by
  · simp only [List.length_drop, List.length_cons]; omega
  · simp

end ByteFlow.Search
