import ByteFlow.Proofs.Text.Simplification
import ByteFlow.Proofs.Text.Trimming

/-! The words of a text, and the texts that are their words joined.
Words are maximal runs of bytes that are no blanks. The pass that joins them works on one buffer; that it reads no byte
that it has written is seen by keeping a list of the places written. -/
namespace ByteFlow.Text.Spacing

/-- Some bytes, none of them blank. -/
structure IsWord (word : List UInt8) : Prop where
  some : word ≠ []
  inked : ∀ b ∈ word, ¬ Blank b

/-- The words of a text in their order, each between blanks or the ends of the text. -/
inductive Worded : List UInt8 → List (List UInt8) → Prop
  | blank {gap : List UInt8} (blanks : ∀ b ∈ gap, Blank b) : Worded gap []
  | word (gap : List UInt8) {word rest : List UInt8} {ws : List (List UInt8)} (blanks : ∀ b ∈ gap, Blank b)
      (isWord : IsWord word) (ends : ∀ b ∈ rest.head?, Blank b) (others : Worded rest ws) :
      Worded (gap ++ word ++ rest) (word :: ws)

variable {text gap word rest : List UInt8} {ws : List (List UInt8)}

/-! Finding the words -/

private theorem words_gap (blanks : ∀ b ∈ gap, Blank b) (rest : List UInt8) : words (gap ++ rest) = words rest := by
  induction gap with
  | nil => rfl
  | cons b gap ih =>
    rw [List.forall_mem_cons] at blanks
    rw [List.cons_append, words, wordsFrom, if_pos ((isBlank_iff b).mpr blanks.1)]
    exact ih blanks.2

private theorem wordsFrom_inked (inked : ∀ b ∈ word, ¬ Blank b) (begun rest : List UInt8) :
    wordsFrom begun (word ++ rest) = wordsFrom (word.reverse ++ begun) rest := by
  induction word generalizing begun with
  | nil => rfl
  | cons b word ih =>
    rw [List.forall_mem_cons] at inked
    rw [List.cons_append, wordsFrom, if_neg (mt (isBlank_iff b).mp inked.1), ih inked.2, List.reverse_cons,
      List.append_assoc, List.singleton_append]

/-- A word that is read ends at the end of the text or before a blank. -/
private theorem wordsFrom_ends (some : word ≠ []) (ends : ∀ b ∈ rest.head?, Blank b) :
    wordsFrom word rest = word.reverse :: words rest := by
  have filled : ¬ word.isEmpty = true := by simpa using some
  cases rest with
  | nil => simp [wordsFrom, words, some]
  | cons b rest =>
    have blank := (isBlank_iff b).mpr (ends b rfl)
    rw [wordsFrom, if_pos blank, if_neg filled, words, wordsFrom, if_pos blank]
    rfl

/-- A text has one list of words, the one that is found in it. -/
theorem Worded.words_eq (worded : Worded text ws) : words text = ws := by
  induction worded with
  | @blank gap blanks =>
    have alone := words_gap blanks []
    rwa [List.append_nil] at alone
  | @word gap word rest ws blanks isWord ends _ ih =>
    rw [List.append_assoc, words_gap blanks, words, wordsFrom_inked isWord.inked, List.append_nil,
      wordsFrom_ends (by simpa using isWord.some) ends, List.reverse_reverse, ih]

theorem Worded.isWord (worded : Worded text ws) : ∀ word ∈ ws, IsWord word := by
  induction worded with
  | blank => simp
  | word _ _ isWord _ _ ih => exact List.forall_mem_cons.mpr ⟨isWord, ih⟩

/-- A byte in front of a text widens the gap that it begins with or its first word, or makes one more word. -/
theorem exists_worded (text : List UInt8) : ∃ ws, Worded text ws := by
  induction text with
  | nil => exact ⟨[], .blank (by simp)⟩
  | cons b rest ih =>
    obtain ⟨ws, worded⟩ := ih
    by_cases blank : Blank b
    · cases worded with
      | blank blanks => exact ⟨[], .blank (List.forall_mem_cons.mpr ⟨blank, blanks⟩)⟩
      | @word gap word rest ws blanks isWord ends others =>
        exact ⟨word :: ws, .word (b :: gap) (List.forall_mem_cons.mpr ⟨blank, blanks⟩) isWord ends others⟩
    · have single : IsWord [b] := ⟨by simp, by simpa using blank⟩
      cases worded with
      | blank blanks =>
        refine ⟨[[b]], .word [] (by simp) single (fun c first => ?_) (.blank blanks)⟩
        exact blanks c (List.mem_of_mem_head? first)
      | @word gap word rest ws blanks isWord ends others =>
        cases gap with
        | nil =>
          have longer : IsWord (b :: word) := ⟨by simp, List.forall_mem_cons.mpr ⟨blank, isWord.inked⟩⟩
          exact ⟨(b :: word) :: ws, .word [] (by simp) longer ends others⟩
        | cons c gap =>
          refine ⟨[b] :: word :: ws, .word [] (by simp) single ?_ (.word (c :: gap) blanks isWord ends others)⟩
          simpa using blanks c (by simp)

/-! Joined words -/

private theorem head?_intercalate (all : ∀ word ∈ ws, IsWord word) :
    ∀ b ∈ (List.intercalate [Byte.space] ws).head?, ¬ Blank b := by
  cases ws with
  | nil => simp [List.intercalate]
  | cons word ws =>
    obtain ⟨some, inked⟩ := all word (by simp)
    intro b first
    rw [intercalate_cons, List.head?_append_of_ne_nil _ some] at first
    exact inked b (List.mem_of_mem_head? first)

private theorem intercalate_ne_nil (all : ∀ word ∈ ws, IsWord word) (more : ws ≠ []) :
    List.intercalate [Byte.space] ws ≠ [] := by
  obtain ⟨word, ws, rfl⟩ := List.exists_cons_of_ne_nil more
  rw [intercalate_cons]
  exact List.append_ne_nil_of_left_ne_nil (all word (by simp)).some _

private theorem getLast?_intercalate (all : ∀ word ∈ ws, IsWord word) :
    ∀ b ∈ (List.intercalate [Byte.space] ws).getLast?, ¬ Blank b := by
  induction ws with
  | nil => simp [List.intercalate]
  | cons word ws ih =>
    rw [List.forall_mem_cons] at all
    intro b last
    rw [intercalate_cons] at last
    split at last
    · rw [List.append_nil] at last
      exact all.1.inked b (List.mem_of_getLast? last)
    · next more =>
      have some := intercalate_ne_nil all.2 more
      rw [List.getLast?_append_of_ne_nil _ (by simp), List.getLast?_append_of_ne_nil _ some] at last
      exact ih all.2 b last

/-- Only blanks are judged, so what stands before them makes no difference. -/
private theorem spacedSingly_append (inked : ∀ b ∈ word, ¬ Blank b) (rest : List UInt8) :
    spacedSingly (word ++ rest) = spacedSingly rest := by
  induction word with
  | nil => rfl
  | cons b word ih =>
    rw [List.forall_mem_cons, ← isBlank_iff, Bool.not_eq_true] at inked
    rw [← ih inked.2, List.cons_append]
    cases word ++ rest with
    | nil => rfl
    | cons c rest => rw [spacedSingly, inked.1, Bool.not_false, Bool.true_or, Bool.true_and]

private theorem spacedSingly_intercalate (all : ∀ word ∈ ws, IsWord word) :
    spacedSingly (List.intercalate [Byte.space] ws) = true := by
  induction ws with
  | nil => rfl
  | cons word ws ih =>
    rw [List.forall_mem_cons] at all
    rw [intercalate_cons, spacedSingly_append all.1.inked]
    split
    · rfl
    · next more =>
      obtain ⟨b, rest, joined⟩ := List.exists_cons_of_ne_nil (intercalate_ne_nil all.2 more)
      have inked := head?_intercalate all.2 b (by rw [joined]; rfl)
      have single := ih all.2
      rw [joined] at single ⊢
      rw [← isBlank_iff, Bool.not_eq_true] at inked
      rw [List.singleton_append, spacedSingly, single, inked]
      rfl

private theorem takeWhile_inked (first : ∀ b ∈ text.head?, ¬ Blank b) : text.takeWhile Byte.isBlank = [] :=
  @takeWhile_isBlank text [] (by simp) first

theorem isSimplified_intercalate (all : ∀ word ∈ ws, IsWord word) :
    isSimplified (List.intercalate [Byte.space] ws) = true := by
  have front : leading (List.intercalate [Byte.space] ws) = 0 :=
    congrArg List.length (takeWhile_inked (head?_intercalate all))
  have back : (List.intercalate [Byte.space] ws).reverse.takeWhile Byte.isBlank = [] := by
    apply takeWhile_inked
    rw [List.head?_reverse]
    exact getLast?_intercalate all
  rw [isSimplified, spacedSingly_intercalate all, contentEnd, front, back]
  simp

/-- The test passes exactly the texts that are their words joined. -/
theorem Worded.isSimplified_iff (worded : Worded text ws) :
    isSimplified text = true ↔ text = List.intercalate [Byte.space] ws := by
  constructor
  · intro same
    rw [← worded.words_eq]
    exact (joinWords_of_isSimplified same).symm
  · rintro rfl
    exact isSimplified_intercalate worded.isWord

/-! The pass on one buffer, with every read and write granted or refused -/

/-- A pass with the places that it has written. -/
structure Watched where
  pass : Pass
  written : List Nat

/-- The byte at a place, unless the place was written or there is none. -/
def Watched.read? (w : Watched) (place : Nat) : Option UInt8 :=
  if place ∈ w.written then none else w.pass.buffer[place]?

/-- Writes the next byte, if there is a place for it. -/
def Watched.write? (w : Watched) (b : UInt8) : Option Watched :=
  if w.pass.filled < w.pass.buffer.size then
    some ⟨⟨w.pass.buffer.setIfInBounds w.pass.filled b, w.pass.filled + 1, w.pass.owed⟩, w.pass.filled :: w.written⟩
  else none

def Watched.owing (w : Watched) (owed : Bool) : Watched := { w with pass := { w.pass with owed } }

def Watched.accept? (w : Watched) (place : Nat) : Option Watched := do
  let b ← w.read? place
  if Byte.isBlank b then return w.owing (decide (0 < w.pass.filled))
  else if w.pass.owed then ((← w.write? Byte.space).owing false).write? b
  else w.write? b

def simplify? (text : List UInt8) : Option (List UInt8) := do
  let w ← (List.range text.length).foldlM Watched.accept? ⟨⟨text.toArray, 0, false⟩, []⟩
  return w.pass.buffer.toList.take w.pass.filled

/-- All that was written lies before the place to be written next. -/
def Watched.Front (w : Watched) : Prop := ∀ place ∈ w.written, place < w.pass.filled

private theorem Watched.Front.write {w : Watched} (front : w.Front) (room : w.pass.filled < w.pass.buffer.size)
    (b : UInt8) :
    ∃ w', w.write? b = some w' ∧
      w'.pass = ⟨w.pass.buffer.setIfInBounds w.pass.filled b, w.pass.filled + 1, w.pass.owed⟩ ∧ w'.Front := by
  refine ⟨_, if_pos room, rfl, List.forall_mem_cons.mpr ⟨Nat.lt_succ_self _, fun place member => ?_⟩⟩
  exact Nat.lt_succ_of_lt (front place member)

/-- A pass writes only places that it has read, so it may read the next one. -/
private theorem Watched.Front.accept {w : Watched} {i : Nat} (front : w.Front) (reached : w.pass.Reached text i)
    (inside : i < text.length) : ∃ w', w.accept? i = some w' ∧ w'.pass = w.pass.accept i ∧ w'.Front := by
  obtain ⟨size, -, -, behind, unread⟩ := reached
  have clear : i ∉ w.written := fun member => by
    have := front i member
    omega
  have here : w.pass.buffer[i]? = some text[i] := (unread i (Nat.le_refl i)).trans (List.getElem?_eq_getElem inside)
  have read : w.read? i = some text[i] := (if_neg clear).trans here
  rw [Watched.accept?, read, Pass.accept, here, Option.bind_eq_bind, Option.bind_some]
  dsimp only
  split
  · exact ⟨_, rfl, rfl, front⟩
  · split
    · next due =>
      rw [due] at behind
      have roomy : w.pass.filled + 1 ≤ i := behind
      obtain ⟨spaced, wrote, same, front'⟩ := front.write (by omega) Byte.space
      have next : (spaced.owing false).Front := front'
      have room : (spaced.owing false).pass.filled < (spaced.owing false).pass.buffer.size := by
        simp only [Watched.owing, same, Array.size_setIfInBounds]
        omega
      obtain ⟨last, wrote', same', front''⟩ := next.write room text[i]
      rw [wrote, Option.bind_eq_bind, Option.bind_some]
      refine ⟨last, wrote', ?_, front''⟩
      simp only [same', Watched.owing, same]
    · next free =>
      obtain ⟨last, wrote, same, front'⟩ := front.write (by omega) text[i]
      rw [Bool.not_eq_true] at free
      exact ⟨last, wrote, by rw [same, free], front'⟩

/-- In one buffer the pass is granted all that it does, and ends as it does unwatched. -/
theorem simplify?_eq (text : List UInt8) : simplify? text = some (simplify text) := by
  have watched : ∀ i ≤ text.length, ∃ w,
      (List.range i).foldlM Watched.accept? ⟨⟨text.toArray, 0, false⟩, []⟩ = some w ∧
        w.pass = (List.range i).foldl Pass.accept ⟨text.toArray, 0, false⟩ ∧ w.Front := by
    intro i within
    induction i with
    | zero => exact ⟨_, rfl, rfl, nofun⟩
    | succ i ih =>
      obtain ⟨w, granted, same, front⟩ := ih (by omega)
      have reached := Pass.reached_range text (show i ≤ text.length by omega)
      rw [← same] at reached
      obtain ⟨w', accepted, same', front'⟩ := front.accept reached within
      refine ⟨w', ?_, ?_, front'⟩
      · rw [List.range_succ, List.foldlM_append, granted]
        simpa using accepted
      · rw [same', same, List.range_succ, List.foldl_append]
        rfl
  obtain ⟨w, granted, same, -⟩ := watched text.length (Nat.le_refl _)
  rw [simplify?, granted, simplify, ← same]
  rfl

end ByteFlow.Text.Spacing
