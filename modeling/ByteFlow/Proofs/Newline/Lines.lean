import ByteFlow.Proofs.Newline
import Mathlib.Data.List.Infix

/-! A text taken off line by line.
Each line runs up to its line feed or as far as it may; without its line end it is the body of the line. -/
namespace ByteFlow.Newline
open Byte

/-- The first line, at most `most` bytes of it; 0 sets no bound. -/
def lineUpTo (most : Nat) (s : List UInt8) : List UInt8 :=
  if most = 0 then firstLine s else (firstLine s).take most

/-- What calls for lines of up to so many bytes take off a text, one after the other. -/
def linesUpTo : List Nat → List UInt8 → List (List UInt8)
  | [], _ => []
  | most :: rest, s => lineUpTo most s :: linesUpTo rest (s.drop (lineUpTo most s).length)

/-- The line has this body and, unless it is unended, one line end behind it. A carriage return at the end
of the body is part of it. -/
inductive Ended : List UInt8 → List UInt8 → Prop
  | unended {body : List UInt8} : lineFeed ∉ body → Ended body body
  | feed {body : List UInt8} : lineFeed ∉ body → body.getLast? ≠ some carriageReturn → Ended (body ++ [lineFeed]) body
  | pair {body : List UInt8} : lineFeed ∉ body → Ended (body ++ [carriageReturn, lineFeed]) body

/-- The bytes without a carriage return at the end. -/
def dropReturn (body : List UInt8) : List UInt8 :=
  if body.getLast? = some carriageReturn then body.dropLast else body

/-- Two carriage returns stand before the line feed, of which reading text drops one. -/
def Doubled (line : List UInt8) : Prop := [carriageReturn, carriageReturn, lineFeed] <:+ line

instance (line : List UInt8) : Decidable (Doubled line) := inferInstanceAs (Decidable (_ <:+ _))

variable {line body s : List UInt8}

/-! Taking lines off -/

theorem length_lineUpTo_le {most : Nat} (some : most ≠ 0) (s : List UInt8) : (lineUpTo most s).length ≤ most := by
  have cut : lineUpTo most s = (firstLine s).take most := if_neg some
  rw [cut]
  exact List.length_take_le ..

/-- A bound that no text reaches is none. -/
theorem take_firstLine_eq {most bound : Nat} (unbounded : most = 0 → s.length ≤ bound) :
    (firstLine s).take (if most = 0 then bound else most) = lineUpTo most s := by
  unfold lineUpTo
  split
  · next zero =>
    have inside := firstLine_prefix s
    exact List.take_of_length_le (inside.length_le.trans (unbounded zero))
  · rfl

/-! The lines of a text -/

private theorem firstLine_of_notMem (unended : lineFeed ∉ s) : firstLine s = s := by
  simpa [firstLine] using firstLine_append s [] unended

private theorem firstLine_of_line (unended : lineFeed ∉ body) (rest : List UInt8) :
    firstLine (body ++ lineFeed :: rest) = body ++ [lineFeed] := by
  simp [firstLine_append _ _ unended, firstLine]

theorem lines_eq_cons (some : s ≠ []) : lines s = firstLine s :: lines (s.drop (firstLine s).length) := by
  induction s using text_induction with
  | empty => contradiction
  | rest body unended some => simp [lines_of_notMem unended some, firstLine_of_notMem unended, lines]
  | line body rest unended _ => simp [lines_append unended, firstLine_of_line unended]

theorem lines_mem (member : line ∈ lines s) : line ≠ [] ∧ OneLine line := by
  induction s using text_induction with
  | empty => simp [lines] at member
  | rest body unended some =>
    simp only [lines_of_notMem unended some, List.mem_singleton] at member
    subst member
    exact ⟨some, fun feed => unended (line.dropLast_subset feed)⟩
  | line body rest unended ih =>
    simp only [lines_append unended, List.mem_cons] at member
    rcases member with rfl | later
    · simp [OneLine, unended]
    · exact ih later

/-- The lines are all of the text. -/
private theorem flatten_lines (s : List UInt8) : (lines s).flatten = s := by
  induction s using text_induction with
  | empty => rfl
  | rest body unended some => simp [lines_of_notMem unended some]
  | line body rest unended ih => simp [lines_append unended, ih]

/-! Line ends -/

private theorem dropReturn_of_ne (plain : body.getLast? ≠ some carriageReturn) : dropReturn body = body := if_neg plain

private theorem dropReturn_concat (body : List UInt8) : dropReturn (body ++ [carriageReturn]) = body := by
  simp [dropReturn]

private theorem dropReturn_subset (body : List UInt8) : dropReturn body ⊆ body := by
  unfold dropReturn
  split
  · exact body.dropLast_subset
  · exact List.Subset.refl body

/-- Reading text drops one carriage return before the line feed. -/
private theorem normalize_feed (unended : lineFeed ∉ body) :
    normalize (body ++ [lineFeed]) = dropReturn body ++ [lineFeed] := by
  by_cases last : body.getLast? = some carriageReturn
  · obtain ⟨front, rfl⟩ := List.getLast?_eq_some_iff.mp last
    have front_unended : lineFeed ∉ front := fun feed => unended (List.mem_append_left _ feed)
    simp only [dropReturn_concat, List.append_assoc, List.singleton_append, normalize_concat_pair,
      normalize_of_notMem front_unended]
  · have whole : ¬ Parts body [lineFeed] := fun parts => last parts.1
    simp only [normalize_append body [lineFeed] whole, normalize_of_notMem unended, dropReturn_of_ne last]
    rfl

private theorem normalize_line (unended : lineFeed ∉ body) (rest : List UInt8) :
    normalize (body ++ lineFeed :: rest) = dropReturn body ++ lineFeed :: normalize rest := by
  have whole : ¬ Parts (body ++ [lineFeed]) rest := by
    rintro ⟨last, -⟩
    simp [lineFeed, carriageReturn] at last
  have split : body ++ lineFeed :: rest = (body ++ [lineFeed]) ++ rest := by simp
  rw [split, normalize_append _ _ whole, normalize_feed unended]
  simp

/-- Normalizing keeps the lines apart. -/
theorem lines_normalize (s : List UInt8) : lines (normalize s) = (lines s).map normalize := by
  induction s using text_induction with
  | empty => rfl
  | rest body unended some => simp [normalize_of_notMem unended, lines_of_notMem unended some]
  | line body rest unended ih =>
    have kept : lineFeed ∉ dropReturn body := fun feed => unended (dropReturn_subset body feed)
    simp [normalize_line unended, lines_append kept, lines_append unended, ih, normalize]

/-! Bodies of lines -/

private theorem chomp_of_notMem (unended : lineFeed ∉ line) : chomp line = line := by
  rcases List.eq_nil_or_concat line with rfl | ⟨front, b, rfl⟩
  · rfl
  · have plain : b ≠ lineFeed := by
      rintro rfl
      simp at unended
    simp [chomp, plain]

private theorem chomp_feed (body : List UInt8) : chomp (body ++ [lineFeed]) = dropReturn body := by
  rcases List.eq_nil_or_concat body with rfl | ⟨front, b, rfl⟩
  · rfl
  · by_cases last : b = carriageReturn <;> simp [chomp, dropReturn, last]

private theorem OneLine.cases (one : OneLine line) :
    lineFeed ∉ line ∨ ∃ body, lineFeed ∉ body ∧ line = body ++ [lineFeed] := by
  by_cases last : line.getLast? = some lineFeed
  · obtain ⟨body, rfl⟩ := List.getLast?_eq_some_iff.mp last
    right
    simpa [OneLine] using one
  · exact .inl (one.notMem last)

/-- What goes from the end of a line is its line end. -/
theorem OneLine.ended (one : OneLine line) : Ended line (chomp line) := by
  rcases one.cases with unended | ⟨body, unended, rfl⟩
  · rw [chomp_of_notMem unended]
    exact .unended unended
  · rw [chomp_feed]
    by_cases last : body.getLast? = some carriageReturn
    · obtain ⟨front, rfl⟩ := List.getLast?_eq_some_iff.mp last
      simp only [dropReturn_concat, List.append_assoc, List.singleton_append]
      exact .pair fun feed => unended (List.mem_append_left _ feed)
    · rw [dropReturn_of_ne last]
      exact .feed unended last

private theorem not_doubled_of_notMem (unended : lineFeed ∉ line) : ¬ Doubled line := by
  intro doubled
  apply unended
  apply doubled.subset
  simp

private theorem doubled_feed_iff (body : List UInt8) :
    Doubled (body ++ [lineFeed]) ↔ ∃ front, body = front ++ [carriageReturn, carriageReturn] := by
  have two : [carriageReturn, carriageReturn] ++ [lineFeed] <:+ body ++ [lineFeed] ↔
        [carriageReturn, carriageReturn] <:+ body :=
    List.suffix_append_self_iff
  refine two.trans ⟨?_, ?_⟩
  · rintro ⟨front, same⟩
    exact ⟨front, same.symm⟩
  · rintro ⟨front, same⟩
    exact ⟨front, same.symm⟩

private theorem dropReturn_dropReturn (body : List UInt8) :
    dropReturn (dropReturn body) = if Doubled (body ++ [lineFeed]) then (dropReturn body).dropLast else dropReturn body := by
  split
  · next doubled =>
    obtain ⟨front, rfl⟩ := (doubled_feed_iff body).mp doubled
    have split : front ++ [carriageReturn, carriageReturn] = (front ++ [carriageReturn]) ++ [carriageReturn] := by simp
    rw [split, dropReturn_concat, dropReturn_concat, List.dropLast_concat]
  · next single =>
    by_cases last : body.getLast? = some carriageReturn
    · obtain ⟨front, rfl⟩ := List.getLast?_eq_some_iff.mp last
      rw [dropReturn_concat]
      apply dropReturn_of_ne
      intro again
      obtain ⟨more, rfl⟩ := List.getLast?_eq_some_iff.mp again
      exact single ((doubled_feed_iff _).mpr ⟨more, by simp⟩)
    · simp [dropReturn_of_ne last]

/-- Read as text a line loses one carriage return more, if there is one before its line end. -/
theorem OneLine.chomp_normalize (one : OneLine line) :
    chomp (normalize line) = if Doubled line then (chomp line).dropLast else chomp line := by
  rcases one.cases with unended | ⟨body, unended, rfl⟩
  · simp [normalize_of_notMem unended, not_doubled_of_notMem unended]
  · rw [normalize_feed unended, chomp_feed, chomp_feed, dropReturn_dropReturn]

theorem Doubled.split (doubled : Doubled line) :
    ∃ front, line = front ++ [carriageReturn] ++ [carriageReturn] ++ [lineFeed] ∧ chomp line = front ++ [carriageReturn] := by
  obtain ⟨front, rfl⟩ := doubled
  have split : front ++ [carriageReturn, carriageReturn, lineFeed] =
      front ++ [carriageReturn] ++ [carriageReturn] ++ [lineFeed] := by simp
  refine ⟨front, split, ?_⟩
  rw [split, chomp_feed, dropReturn_concat]

theorem lines_eq_nil_iff : lines s = [] ↔ s = [] := by
  constructor
  · intro none
    rw [← flatten_lines s, none, List.flatten_nil]
  · rintro rfl
    rfl

end ByteFlow.Newline
