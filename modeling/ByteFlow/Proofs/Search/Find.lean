import ByteFlow.Proofs.Handle.Text
import ByteFlow.Proofs.Search.Bounds
import ByteFlow.Proofs.Search.Count
import Mathlib.Data.Set.Card
import Mathlib.Order.Bounds.Basic

/-! Whichever way a pattern is searched, the answer is told by the places where it stands.
A single byte is looked for by a plain scan, a longer pattern by a matcher and an empty one not at all; each has bounds
of its own, and all come to the least, the greatest or the number of the same places. -/
namespace ByteFlow.Search
open ChunkQueue (minus? minus?_of_le slice? slice?_of_le)

variable {pattern text : List UInt8} {b : UInt8} {start stop i : Nat}

/-! Answers and places -/

/-- The least of the places, or none if there is no place. -/
def IsFirst (places : Set Nat) : Option Nat → Prop
  | some i => IsLeast places i
  | none => places = ∅

/-- The greatest of the places, or none if there is no place. -/
def IsLast (places : Set Nat) : Option Nat → Prop
  | some i => IsGreatest places i
  | none => places = ∅

private theorem isFirst_firstFrom? (pattern text : List UInt8) (start : Nat) :
    IsFirst {i | start ≤ i ∧ OccursAt pattern text i} (firstFrom? pattern text start) := by
  cases found : firstFrom? pattern text start with
  | none =>
    refine Set.eq_empty_iff_forall_notMem.mpr ?_
    rintro i ⟨from_start, there⟩
    exact firstFrom?_eq_none_iff.mp found i from_start there
  | some i =>
    obtain ⟨later, occurs, first⟩ := firstFrom?_eq_some_iff.mp found
    refine ⟨⟨later, occurs⟩, ?_⟩
    rintro j ⟨from_start, there⟩
    by_contra before
    exact first j from_start (Nat.lt_of_not_le before) there

private theorem isLast_lastUpTo? (pattern text : List UInt8) (stop : Nat) :
    IsLast {i | i ≤ stop ∧ OccursAt pattern text i} (lastUpTo? pattern text stop) := by
  cases found : lastUpTo? pattern text stop with
  | none =>
    refine Set.eq_empty_iff_forall_notMem.mpr ?_
    rintro i ⟨until_, there⟩
    exact lastUpTo?_eq_none_iff.mp found i until_ there
  | some i =>
    obtain ⟨before, occurs, last⟩ := lastUpTo?_eq_some_iff.mp found
    refine ⟨⟨before, occurs⟩, ?_⟩
    rintro j ⟨until_, there⟩
    by_contra later
    exact last j (Nat.lt_of_not_le later) until_ there

/-- An empty pattern stands at every place, the end included. -/
private theorem occursAt_nil_iff : OccursAt [] text i ↔ i ≤ text.length := by
  simp [OccursAt]

/-- A pattern of one byte stands wherever the text shows that byte. -/
private theorem occursAt_singleton_iff : OccursAt [b] text i ↔ text[i]? = some b := by
  constructor
  · intro occurs
    exact occurs.getElem? (j := 0) Nat.one_pos
  · intro shown
    obtain ⟨inside, same⟩ := List.getElem?_eq_some_iff.mp shown
    refine ⟨inside, ?_⟩
    rw [List.drop_eq_getElem_cons inside, same]
    rfl

/-! Single bytes -/

private theorem indexOfByte_eq (text : List UInt8) (b : UInt8) (start : Nat) :
    indexOfByte text b start = firstFrom? [b] text start := by
  symm
  cases found : indexOfByte text b start with
  | none =>
    have missing := Handle.indexOfByte_eq_none_iff.mp found
    refine firstFrom?_eq_none_iff.mpr fun i from_start there => ?_
    refine missing b (List.mem_of_getElem? (i := i - start) ?_) rfl
    rw [List.getElem?_drop, Nat.add_sub_cancel' from_start]
    exact occursAt_singleton_iff.mp there
  | some i =>
    obtain ⟨later, inside, here, before⟩ := Handle.indexOfByte_eq_some found
    refine firstFrom?_eq_some_iff.mpr ⟨later, occursAt_singleton_iff.mpr here, fun j from_start less there => ?_⟩
    refine before b (List.mem_of_getElem? (i := j - start) ?_) rfl
    rw [List.getElem?_take_of_lt (by omega), List.getElem?_drop, Nat.add_sub_cancel' from_start]
    exact occursAt_singleton_iff.mp there

/-- The scan backwards over a first part of the text. -/
private theorem scan_take (inside : stop < text.length) :
    ((text.take (stop + 1)).reverse.findIdx? (· == b)).map (stop - ·) = lastUpTo? [b] text stop := by
  symm
  have size : (text.take (stop + 1)).length = stop + 1 := List.length_take_of_le inside
  have shows : ∀ k (small : k < (text.take (stop + 1)).reverse.length),
      text[stop - k]? = some (text.take (stop + 1)).reverse[k] := by
    intro k small
    rw [List.length_reverse] at small
    rw [← List.getElem?_eq_getElem, List.getElem?_reverse small, List.getElem?_take_of_lt (by omega), size]
    congr 1
  cases found : (text.take (stop + 1)).reverse.findIdx? (· == b) with
  | none =>
    rw [List.findIdx?_eq_none_iff_findIdx_eq, List.findIdx_eq_length] at found
    refine lastUpTo?_eq_none_iff.mpr fun i until_ there => ?_
    have shown := shows (stop - i) (by rw [List.length_reverse, size]; omega)
    rw [Nat.sub_sub_self until_, occursAt_singleton_iff.mp there] at shown
    have := found _ (List.getElem_mem (n := stop - i) (by rw [List.length_reverse, size]; omega))
    simp [← Option.some.inj shown] at this
  | some k =>
    obtain ⟨small, here, before⟩ := List.findIdx?_eq_some_iff_getElem.mp found
    have within : k < stop + 1 := by rwa [List.length_reverse, size] at small
    refine lastUpTo?_eq_some_iff.mpr ⟨Nat.sub_le _ _, ?_, fun j later until_ there => ?_⟩
    · rw [occursAt_singleton_iff, shows k small, eq_of_beq here]
    · have later : stop - k < j := later
      have passed : stop - j < k := by omega
      have shown := shows (stop - j) (Nat.lt_trans passed small)
      rw [Nat.sub_sub_self until_, occursAt_singleton_iff.mp there] at shown
      have := before (stop - j) passed
      simp [← Option.some.inj shown] at this

/-- Without a bound the scan begins at the end. -/
private theorem lastIndexOfByte_eq (text : List UInt8) (b : UInt8) (bound : Option Nat) :
    lastIndexOfByte text b bound = lastUpTo? [b] text (bound.getD text.length) := by
  have outside : ∀ stop, ∀ j, text.length - 1 < j → j ≤ stop → ¬ OccursAt [b] text j := by
    intro stop j later _ there
    have fits : j + 1 ≤ text.length := there.1
    omega
  cases text with
  | nil =>
    have missing : lastUpTo? [b] [] (bound.getD 0) = none :=
      lastUpTo?_eq_none_iff.mpr fun j _ there => by simpa using occursAt_singleton_iff.mp there
    rw [List.length_nil, missing]
    cases bound <;> rfl
  | cons c rest =>
    have inside : (c :: rest).length - 1 < (c :: rest).length := by simp
    cases bound with
    | none =>
      have scanned := scan_take (b := b) inside
      rw [Nat.sub_add_cancel (by simp)] at scanned
      rw [Option.getD_none, ← lastUpTo?_skip (Nat.sub_le _ 1) (outside _), ← scanned, lastIndexOfByte, Nat.min_self]
    | some n =>
      have within : min n ((c :: rest).length - 1) < (c :: rest).length := by omega
      have past : ∀ j, min n ((c :: rest).length - 1) < j → j ≤ n → ¬ OccursAt [b] (c :: rest) j :=
        fun j later until_ => outside n j (by omega) until_
      rw [Option.getD_some, ← lastUpTo?_skip (Nat.min_le_left _ _) past, ← scan_take within, lastIndexOfByte,
        Nat.min_eq_left within]
      rfl

/-! Any pattern -/

private theorem indexOf_eq (text pattern : List UInt8) (start : Nat) :
    indexOf text pattern start = firstFrom? pattern text start := by
  match pattern with
  | [] => rw [indexOf, firstFrom?_nil]
  | [b] => exact indexOfByte_eq text b start
  | b :: c :: rest => exact Matcher.indexIn_ofPattern _ text start

private theorem lastIndexOf_eq (text pattern : List UInt8) (bound : Option Nat) :
    lastIndexOf text pattern bound = lastUpTo? pattern text (bound.getD Word.maxValue) := by
  match pattern with
  | [] => rw [lastIndexOf, lastUpTo?_nil]
  | [b] => exact lastIndexOfByte_eq text b (some (bound.getD Word.maxValue))
  | b :: c :: rest => exact Matcher.lastIndexIn_ofPattern _ text _

private theorem contains_iff : contains text pattern = true ↔ ∃ i, OccursAt pattern text i := by
  rw [contains, indexOf_eq, Option.isSome_iff_ne_none, ne_eq, firstFrom?_eq_none_iff]
  simp

private theorem countPlaces_eq_card (pattern text : List UInt8) :
    countPlaces pattern text = (placesFrom pattern text 0).card := by
  rw [countPlaces, List.countP_eq_length_filter, placesFrom]
  simp only [Nat.zero_le, true_and]
  rfl

/-- The places of a pattern, counted one by one. -/
private theorem count_eq_countPlaces (text pattern : List UInt8) : count text pattern = countPlaces pattern text := by
  by_cases none : pattern = []
  · subst none
    have every : ∀ i ∈ List.range (text.length + 1), decide (OccursAt [] text i) = true := by
      intro i member
      rw [decide_eq_true_iff, occursAt_nil_iff]
      exact Nat.le_of_lt_succ (List.mem_range.mp member)
    rw [countPlaces, List.countP_eq_length.mpr every, List.length_range]
    rfl
  · rw [countPlaces_eq_card, count_eq_card none]

private theorem count_eq_ncard (text pattern : List UInt8) :
    count text pattern = {i | OccursAt pattern text i}.ncard := by
  have same : {i | OccursAt pattern text i} = ↑(placesFrom pattern text 0) := by
    ext i
    simp [mem_placesFrom]
  rw [same, Set.ncard_coe_finset, count_eq_countPlaces, countPlaces_eq_card]

/-! The same searches with every index, slice, difference and sum granted or refused -/

def indexOfByte? (text : List UInt8) (b : UInt8) (start : Nat) : Option (Option Nat) :=
  if text.length < start then some none
  else do
    match (← slice? text start text.length).findIdx? (· == b) with
    | none => some none
    | some i => (Word.add? i start).map some

def indexOf? (text pattern : List UInt8) (start : Nat) : Option (Option Nat) :=
  match pattern with
  | [] => some (if start ≤ text.length then some start else none)
  | [b] => indexOfByte? text b start
  | _ => do (← (Matcher.ofPattern []).setPattern? pattern).indexIn? text.toArray start

/-- Where a scan backwards begins: behind the last byte that may be found. -/
def scanEnd? (text : List UInt8) : Option Nat → Option Nat
  | none => some text.length
  | some n => do Word.add? (min n (← minus? text.length 1)) 1

def lastIndexOfByte? (text : List UInt8) (b : UInt8) (bound : Option Nat) : Option (Option Nat) :=
  if text.isEmpty then some none
  else do
    let window ← slice? text 0 (← scanEnd? text bound)
    some ((window.reverse.findIdx? (· == b)).map (window.length - 1 - ·))

def lastIndexOf? (text pattern : List UInt8) (bound : Option Nat) : Option (Option Nat) :=
  match pattern with
  | [] => some (some (min (bound.getD Word.maxValue) text.length))
  | [b] => lastIndexOfByte? text b (some (bound.getD Word.maxValue))
  | _ => do
    (← (Matcher.ofPattern []).setPattern? pattern).lastIndexIn? text.toArray (bound.getD Word.maxValue)

/-- Counts on from hit to hit, in so many turns at most. -/
def countLoop? (m : Matcher) (text : Array UInt8) : Nat → Nat → Nat → Option Nat
  | turns, counted, start => do
    match ← m.indexIn? text start with
    | none => some counted
    | some place =>
      match turns with
      | 0 => none
      | turns + 1 => countLoop? m text turns (← Word.add? counted 1) (← Word.add? place 1)

def count? (text pattern : List UInt8) : Option Nat :=
  if pattern.isEmpty then Word.add? text.length 1
  else do countLoop? (← (Matcher.ofPattern []).setPattern? pattern) text.toArray text.length 0 0

/-- A sum is a word if it goes one beyond the limit of a request at most. -/
private theorem add?_of_le {m n : Nat} (small : m + n ≤ Word.requestLimit + 1) : Word.add? m n = some (m + n) := by
  have words : Word.requestLimit < Word.maxValue := by decide
  exact if_pos (by omega)

private theorem indexOfByte?_eq (small : text.length ≤ Word.requestLimit) (b : UInt8) (start : Nat) :
    indexOfByte? text b start = some (indexOfByte text b start) := by
  rw [indexOfByte?, indexOfByte]
  split
  · next beyond =>
    rw [List.drop_eq_nil_of_le (Nat.le_of_lt beyond)]
    rfl
  · next inside =>
    rw [slice?_of_le (Nat.le_of_not_lt inside) (Nat.le_refl _), List.take_length]
    simp only [Option.bind_eq_bind, Option.bind_some]
    cases found : (text.drop start).findIdx? (· == b) with
    | none => rfl
    | some i =>
      obtain ⟨within, -⟩ := List.findIdx?_eq_some_iff_getElem.mp found
      rw [List.length_drop] at within
      rw [Option.map_some]
      dsimp only
      rw [add?_of_le (by omega)]
      rfl

private theorem indexOf?_eq (small : text.length ≤ Word.requestLimit) (pattern : List UInt8) (start : Nat) :
    indexOf? text pattern start = some (indexOf text pattern start) := by
  match pattern with
  | [] => rfl
  | [b] => exact indexOfByte?_eq small b start
  | b :: c :: rest =>
    simp only [indexOf?, Matcher.setPattern?_eq, Option.bind_eq_bind, Option.bind_some]
    exact Matcher.indexIn?_eq (b :: c :: rest) small start

private theorem lastIndexOfByte?_eq (small : text.length ≤ Word.requestLimit) (b : UInt8) (bound : Option Nat) :
    lastIndexOfByte? text b bound = some (lastIndexOfByte text b bound) := by
  rw [lastIndexOfByte?]
  split
  · next none =>
    rw [List.isEmpty_iff.mp none]
    cases bound <;> rfl
  · next some =>
    have long : 0 < text.length := List.length_pos_of_ne_nil (by simpa using some)
    have windowed : ∀ stop, stop ≤ text.length → slice? text 0 stop = .some (text.take stop) := by
      intro stop fits
      rw [slice?_of_le (Nat.zero_le _) fits, List.drop_zero]
    cases bound with
    | none =>
      rw [scanEnd?]
      simp only [Option.bind_eq_bind, Option.bind_some, windowed _ (Nat.le_refl _), List.length_take]
      rfl
    | some n =>
      have within : min n (text.length - 1) + 1 ≤ text.length := by omega
      have sum : Word.add? (min n (text.length - 1)) 1 = .some (min n (text.length - 1) + 1) := add?_of_le (by omega)
      rw [scanEnd?, minus?_of_le long]
      simp only [Option.bind_eq_bind, Option.bind_some, sum, windowed _ within, List.length_take]
      rfl

private theorem lastIndexOf?_eq (small : text.length ≤ Word.requestLimit) (pattern : List UInt8) (bound : Option Nat) :
    lastIndexOf? text pattern bound = some (lastIndexOf text pattern bound) := by
  match pattern with
  | [] => rfl
  | [b] => exact lastIndexOfByte?_eq small b _
  | b :: c :: rest =>
    simp only [lastIndexOf?, Matcher.setPattern?_eq, Option.bind_eq_bind, Option.bind_some]
    exact Matcher.lastIndexIn?_eq (b :: c :: rest) small (bound.getD Word.maxValue)

/-- No more hits are counted than the search has moved on, so that neither number grows too large. -/
private theorem countLoop?_eq (some : pattern ≠ []) (small : text.length ≤ Word.requestLimit)
    {turns counted start : Nat}
    (enough : text.length ≤ start + turns) (few : counted ≤ start) :
    countLoop? (Matcher.ofPattern pattern) text.toArray turns counted start =
      .some (counted + countFrom (Matcher.ofPattern pattern) text.toArray start) := by
  have long := List.length_pos_of_ne_nil some
  induction turns generalizing counted start with
  | zero =>
    have missing : firstFrom? pattern text start = none :=
      firstFrom?_eq_none_iff.mpr fun i from_start there => by have := there.1; omega
    rw [countLoop?, Matcher.indexIn?_eq pattern small, countFrom, Matcher.indexIn_ofPattern, missing]
    rfl
  | succ turns ih =>
    rw [countLoop?, Matcher.indexIn?_eq pattern small, countFrom, Matcher.indexIn_ofPattern]
    cases found : firstFrom? pattern text start with
    | none => rfl
    | some place =>
      obtain ⟨later, occurs, -⟩ := firstFrom?_eq_some_iff.mp found
      have inside : start ≤ place ∧ place < text.toArray.size := by
        have := occurs.1
        rw [List.size_toArray]
        omega
      have behind := inside.2
      rw [List.size_toArray] at behind
      have counting : Word.add? counted 1 = .some (counted + 1) := add?_of_le (by omega)
      have moving : Word.add? place 1 = .some (place + 1) := add?_of_le (by omega)
      simp only [Option.bind_eq_bind, Option.bind_some, counting, moving]
      rw [dif_pos inside, ih (by omega) (by omega), Nat.add_right_comm, Nat.add_assoc]

private theorem count?_eq (small : text.length ≤ Word.requestLimit) (pattern : List UInt8) :
    count? text pattern = some (count text pattern) := by
  rw [count?, count]
  split
  · exact add?_of_le (by omega)
  · next some =>
    rw [Matcher.setPattern?_eq, Option.bind_eq_bind, Option.bind_some,
      countLoop?_eq (by simpa using some) small (Nat.le_add_left _ _) (Nat.le_refl 0), Nat.zero_add]

/-! All searches -/

/-- What the searches for a pattern answer, and the matcher that was made for it. -/
structure Answers (pattern text : List UInt8) : Prop where
  first : ∀ start, IsFirst {i | start ≤ i ∧ OccursAt pattern text i} (indexOf text pattern start)
  last : ∀ stop, IsLast {i | i ≤ stop ∧ OccursAt pattern text i} (lastIndexOf text pattern (some stop))
  lastOfAll : text.length ≤ Word.maxValue → IsLast {i | OccursAt pattern text i} (lastIndexOf text pattern none)
  contained : contains text pattern = true ↔ ∃ i, OccursAt pattern text i
  counted : count text pattern = {i | OccursAt pattern text i}.ncard
  matched : ∀ start, (Matcher.ofPattern pattern).indexIn text.toArray start = indexOf text pattern start
  lastMatched : ∀ stop, (Matcher.ofPattern pattern).lastIndexIn text.toArray stop = lastIndexOf text pattern (some stop)

/-- What the searches for a single byte answer. -/
structure ByteAnswers (b : UInt8) (text : List UInt8) : Prop where
  first : ∀ start, IsFirst {i | start ≤ i ∧ text[i]? = some b} (indexOfByte text b start)
  last : ∀ stop, IsLast {i | i ≤ stop ∧ text[i]? = some b} (lastIndexOfByte text b (some stop))
  lastOfAll : IsLast {i | text[i]? = some b} (lastIndexOfByte text b none)

/-- No search for the pattern or for a byte leaves its bounds or fails to end. -/
structure Granted (pattern text : List UInt8) : Prop where
  first : ∀ start, indexOf? text pattern start = some (indexOf text pattern start)
  last : ∀ bound, lastIndexOf? text pattern bound = some (lastIndexOf text pattern bound)
  firstByte : ∀ b start, indexOfByte? text b start = some (indexOfByte text b start)
  lastByte : ∀ b bound, lastIndexOfByte? text b bound = some (lastIndexOfByte text b bound)
  counted : count? text pattern = some (count text pattern)

private theorem answers (pattern text : List UInt8) : Answers pattern text where
  first := fun start => by
    rw [indexOf_eq]
    exact isFirst_firstFrom? pattern text start
  last := fun stop => by
    rw [lastIndexOf_eq]
    exact isLast_lastUpTo? pattern text stop
  lastOfAll := fun small => by
    have bounded : {i | OccursAt pattern text i} = {i | i ≤ Word.maxValue ∧ OccursAt pattern text i} := by
      ext i
      exact ⟨fun there => ⟨by have := there.1; omega, there⟩, And.right⟩
    rw [lastIndexOf_eq, bounded]
    exact isLast_lastUpTo? pattern text Word.maxValue
  contained := contains_iff
  counted := count_eq_ncard text pattern
  matched := fun start => by rw [Matcher.indexIn_ofPattern, indexOf_eq]
  lastMatched := fun stop => by rw [Matcher.lastIndexIn_ofPattern, lastIndexOf_eq, Option.getD_some]

theorem byteAnswers (b : UInt8) (text : List UInt8) : ByteAnswers b text where
  first := fun start => by
    simp only [indexOfByte_eq, ← occursAt_singleton_iff]
    exact isFirst_firstFrom? [b] text start
  last := fun stop => by
    simp only [lastIndexOfByte_eq, Option.getD_some, ← occursAt_singleton_iff]
    exact isLast_lastUpTo? [b] text stop
  lastOfAll := by
    have bounded : {i | text[i]? = some b} = {i | i ≤ text.length ∧ OccursAt [b] text i} := by
      ext i
      rw [Set.mem_ofPred_eq, ← occursAt_singleton_iff]
      exact ⟨fun there => ⟨Nat.le_of_succ_le there.1, there⟩, And.right⟩
    rw [lastIndexOfByte_eq, Option.getD_none, bounded]
    exact isLast_lastUpTo? [b] text text.length

/-- Every search answers by the places where the pattern stands: the first one from `start` on, the last one up to a
bound or without a bound at all, whether there is any, and how many there are, overlapping ones included. That goes
for an empty pattern, which stands at every place up to the end, for one of a single byte, which has searches of its
own, and for longer ones. In a text of a size that a request can have no search leaves the text, the pattern or a
table, and each comes to its end. -/
theorem searches_agree (pattern text : List UInt8) :
    Answers pattern text ∧ (∀ b, ByteAnswers b text) ∧ (∀ i, OccursAt [] text i ↔ i ≤ text.length) ∧
      (text.length ≤ Word.requestLimit → Granted pattern text) := by
  refine ⟨answers pattern text, fun b => byteAnswers b text, fun i => occursAt_nil_iff, fun small => ?_⟩
  exact ⟨indexOf?_eq small pattern, lastIndexOf?_eq small pattern, indexOfByte?_eq small, lastIndexOfByte?_eq small,
    count?_eq small pattern⟩

/-- The occurrences overlap, the last one ends with the text, and a search begins behind the end. -/
theorem searches_agree_overlapping :
    let text : List UInt8 := [97, 98, 97, 98, 97]
    let pattern : List UInt8 := [97, 98, 97]
    text.length ≤ Word.requestLimit ∧ {i | OccursAt pattern text i}.ncard = 2 ∧ count? text pattern = some 2 ∧
      lastIndexOf? text pattern none = some (some 2) ∧ indexOf? text pattern 6 = some none ∧
      lastIndexOfByte? text 98 (some Word.maxValue) = some (some 3) := by
  intro text pattern
  have small : text.length ≤ Word.requestLimit := by decide
  obtain ⟨answered, -, -, grants⟩ := searches_agree pattern text
  have granted := grants small
  have two : count text pattern = 2 := by
    rw [count_eq_countPlaces]
    decide
  refine ⟨small, ?_, ?_, ?_, ?_, ?_⟩
  · rw [← answered.counted, two]
  · rw [granted.counted, two]
  · rw [granted.last, lastIndexOf_eq]
    decide +kernel
  · rw [granted.first, indexOf_eq]
    decide
  · rw [granted.lastByte]
    decide

end ByteFlow.Search
