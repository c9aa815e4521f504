import ByteFlow.Text.Spacing
import Mathlib.Data.List.Basic

/-! Simplifying in place joins the words.
The pass writes only where it has read already, so it does on the buffer what a pass over the bytes
does on a list of its own. -/
namespace ByteFlow.Text.Spacing

/-! The pass on lists -/

/-- Takes one more byte: what is written so far, and whether a space is owed. -/
def gather (p : List UInt8 × Bool) (b : UInt8) : List UInt8 × Bool :=
  if Byte.isBlank b then (p.1, decide (p.1 ≠ []))
  else if p.2 then (p.1 ++ [Byte.space, b], false)
  else (p.1 ++ [b], false)

theorem intercalate_cons (sep w : List UInt8) (ws : List (List UInt8)) :
    List.intercalate sep (w :: ws) = w ++ if ws = [] then [] else sep ++ List.intercalate sep ws := by
  cases ws with
  | nil => simp [List.intercalate]
  | cons v vs => simp [List.intercalate, List.intersperse]

private theorem wordsFrom_ne_nil {word : List UInt8} (some : word ≠ []) (rest : List UInt8) :
    wordsFrom word rest ≠ [] := by
  induction rest generalizing word with
  | nil => simp [wordsFrom, some]
  | cons b rest ih =>
    simp only [wordsFrom]
    split
    · simp [some]
    · exact ih (by simp)

/-- Within a word and between words, the bytes to come continue what is written. -/
private theorem foldl_gather (rest : List UInt8) :
    (∀ done word, word ≠ [] → (rest.foldl gather (done ++ word.reverse, false)).1 =
      done ++ List.intercalate [Byte.space] (wordsFrom word rest)) ∧
    (∀ done, done ≠ [] → (rest.foldl gather (done, true)).1 =
      done ++ if wordsFrom [] rest = [] then [] else
        [Byte.space] ++ List.intercalate [Byte.space] (wordsFrom [] rest)) := by
  induction rest with
  | nil =>
    refine ⟨fun done word some => ?_, fun done some => by simp [wordsFrom]⟩
    simp [wordsFrom, some, List.intercalate]
  | cons b rest ih =>
    obtain ⟨within, between⟩ := ih
    refine ⟨fun done word some => ?_, fun done some => ?_⟩
    · cases blank : Byte.isBlank b with
      | true =>
        have written : done ++ word.reverse ≠ [] := by simp [some]
        simp only [List.foldl_cons, gather, blank, if_true, decide_eq_true written, wordsFrom,
          List.isEmpty_iff, if_neg some]
        rw [between _ written, intercalate_cons, List.append_assoc]
      | false =>
        have := within done (b :: word) (by simp)
        simpa [gather, blank, wordsFrom] using this
    · cases blank : Byte.isBlank b with
      | true => simpa [gather, blank, wordsFrom, some] using between done some
      | false =>
        have := within (done ++ [Byte.space]) [b] (by simp)
        simpa [gather, blank, wordsFrom, wordsFrom_ne_nil] using this

private theorem foldl_gather_eq (s : List UInt8) : (s.foldl gather ([], false)).1 = joinWords s := by
  rw [joinWords, words]
  induction s with
  | nil => rfl
  | cons b rest ih =>
    cases blank : Byte.isBlank b with
    | true => simpa [gather, blank, wordsFrom] using ih
    | false => simpa [gather, blank, wordsFrom] using (foldl_gather rest).1 [] [b] (by simp)

/-! The pass on the buffer -/

private theorem take_setIfInBounds {buffer : Array UInt8} {n : Nat} (inside : n < buffer.size) (b : UInt8) :
    (buffer.setIfInBounds n b).toList.take (n + 1) = buffer.toList.take n ++ [b] := by
  rw [Array.toList_setIfInBounds, List.take_succ_eq_append_getElem (by simpa using inside), List.getElem_set_self,
    List.take_set_of_le (Nat.le_refl n)]

/-- A pass that has read `i` bytes of `s`: it holds what the pass on lists has written, and nothing
beyond the bytes read has changed. -/
structure Pass.Reached (p : Pass) (s : List UInt8) (i : Nat) : Prop where
  size : p.buffer.size = s.length
  written : p.buffer.toList.take p.filled = ((s.take i).foldl gather ([], false)).1
  owed : p.owed = ((s.take i).foldl gather ([], false)).2
  behind : p.filled + p.owed.toNat ≤ i
  unread : ∀ j, i ≤ j → p.buffer[j]? = s[j]?

private theorem Pass.Reached.accept {p : Pass} {s : List UInt8} {i : Nat} (reached : p.Reached s i)
    (inside : i < s.length) : (p.accept i).Reached s (i + 1) := by
  obtain ⟨size, written, owed, behind, unread⟩ := reached
  have here : p.buffer[i]? = some s[i] := by rw [unread i (Nat.le_refl i)]; exact List.getElem?_eq_getElem inside
  have step : (s.take (i + 1)).foldl gather ([], false) =
      gather ((s.take i).foldl gather ([], false)) s[i] := by
    rw [List.take_succ_eq_append_getElem inside, List.foldl_append]
    rfl
  have length := congrArg List.length written
  rw [List.length_take, Array.length_toList, size] at length
  rw [Pass.accept]
  rw [here]
  dsimp only
  generalize (s.take i).foldl gather ([], false) = done at *
  split
  · next blank =>
    have some : decide (0 < p.filled) = decide (done.1 ≠ []) := by
      rw [decide_eq_decide, ← List.length_pos_iff, ← length]
      omega
    refine ⟨size, ?_, ?_, ?_, fun j later => unread j (by omega)⟩
    · rw [step, gather, if_pos blank, written]
    · rw [step, gather, if_pos blank, ← some]
    · have : (decide (0 < p.filled)).toNat ≤ 1 := Bool.toNat_le _
      dsimp only
      omega
  · next inked =>
    split
    · next due =>
      rw [due] at owed behind
      have roomy : p.filled + 1 ≤ i := behind
      refine ⟨by simpa using size, ?_, ?_, Nat.add_le_add_right behind 1, fun j later => ?_⟩
      · rw [step, gather, if_neg inked, ← owed, if_pos rfl, ← written]
        dsimp only
        rw [take_setIfInBounds (by rw [Array.size_setIfInBounds]; omega), take_setIfInBounds (by omega),
          List.append_assoc]
        rfl
      · rw [step, gather, if_neg inked, ← owed, if_pos rfl]
      · dsimp only
        rw [Array.getElem?_setIfInBounds_ne (by omega), Array.getElem?_setIfInBounds_ne (by omega)]
        exact unread j (by omega)
    · next free =>
      have clear : done.2 = false := by simpa [owed] using free
      refine ⟨by simpa using size, ?_, ?_, ?_, fun j later => ?_⟩
      · rw [step, gather, if_neg inked, clear, ← written]
        exact take_setIfInBounds (by omega) _
      · rw [step, gather, if_neg inked, clear]
        rfl
      · have : p.filled ≤ i := by omega
        exact Nat.add_le_add_right this 1
      · dsimp only
        rw [Array.getElem?_setIfInBounds_ne (by omega)]
        exact unread j (by omega)

theorem Pass.reached_range (s : List UInt8) {i : Nat} (within : i ≤ s.length) :
    ((List.range i).foldl Pass.accept ⟨s.toArray, 0, false⟩).Reached s i := by
  induction i with
  | zero => exact ⟨by simp, by simp, by simp, by simp, by simp⟩
  | succ i ih =>
    rw [List.range_succ, List.foldl_append]
    exact (ih (by omega)).accept (by omega)

/-- The pass writes the words with single spaces between them. -/
theorem simplify_eq_joinWords (s : List UInt8) : simplify s = joinWords s := by
  have last := (Pass.reached_range s (Nat.le_refl _)).written
  rw [List.take_length, foldl_gather_eq] at last
  exact last

/-! Simplified texts -/

private theorem intercalate_wordsFrom (word s : List UInt8)
    (begins : word ≠ [] ∨ ∀ b, s.head? = some b → ¬ Byte.isBlank b)
    (ends : ∀ b, s.getLast? = some b → ¬ Byte.isBlank b) (single : spacedSingly s) :
    List.intercalate [Byte.space] (wordsFrom word s) = word.reverse ++ s := by
  induction s generalizing word with
  | nil =>
    by_cases none : word = []
    · simp [none, wordsFrom, List.intercalate]
    · simp [none, wordsFrom, List.intercalate]
  | cons b rest ih =>
    have ends_rest : ∀ c, rest.getLast? = some c → ¬ Byte.isBlank c := by
      intro c last
      refine ends c ?_
      rw [List.getLast?_cons, last]
      rfl
    cases blank : Byte.isBlank b with
    | false =>
      have single_rest : spacedSingly rest := by
        cases rest with
        | nil => rfl
        | cons c rest =>
          simp only [spacedSingly, Bool.and_eq_true] at single
          exact single.2
      have := ih (b :: word) (.inl (by simp)) ends_rest single_rest
      simpa [wordsFrom, blank] using this
    | true =>
      have some : word ≠ [] := by
        rcases begins with some | inked
        · exact some
        · exact absurd blank (inked b rfl)
      cases rest with
      | nil => exact absurd blank (ends b rfl)
      | cons c rest =>
        simp only [spacedSingly, blank, Bool.and_eq_true, Bool.or_eq_true, beq_iff_eq] at single
        obtain ⟨spaced, single_rest⟩ := single
        have space : b = Byte.space ∧ ¬ Byte.isBlank c := by simpa using spaced
        have := ih [] (.inr (by simpa using space.2)) ends_rest single_rest
        have more : wordsFrom [] (c :: rest) ≠ [] := by
          intro none
          rw [none] at this
          simp [List.intercalate] at this
        rw [wordsFrom, if_pos blank, if_neg (by simpa using some), intercalate_cons, if_neg more, this, space.1]
        rfl

/-- A simplified text is its own words joined. -/
theorem joinWords_of_isSimplified {s : List UInt8} (same : isSimplified s) : joinWords s = s := by
  simp only [isSimplified, Bool.and_eq_true, beq_iff_eq] at same
  obtain ⟨⟨no_leading, no_trailing⟩, single⟩ := same
  refine (intercalate_wordsFrom [] s (.inr fun b first blank => ?_) (fun b last blank => ?_) single).trans
    (List.nil_append s)
  · cases s with
    | nil => cases first
    | cons c rest =>
      cases first
      simp [leading, blank] at no_leading
  · have some : s ≠ [] := by rintro rfl; cases last
    rw [contentEnd, no_leading, Nat.zero_max] at no_trailing
    have long := List.length_pos_of_ne_nil some
    have none : (s.reverse.takeWhile Byte.isBlank).length = 0 := by omega
    rw [← List.head?_reverse] at last
    cases reversed : s.reverse with
    | nil => simp [reversed] at last
    | cons c rest =>
      rw [reversed] at last none
      cases last
      simp [blank] at none

end ByteFlow.Text.Spacing
