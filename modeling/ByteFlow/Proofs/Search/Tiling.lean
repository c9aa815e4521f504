import ByteFlow.Proofs.ChunkQueue.Bounds
import ByteFlow.Proofs.Handle.Ownership
import ByteFlow.Proofs.Search.Count

/-! Replacing goes by the leftmost occurrences that do not overlap.
The places of these tile the text, and what is written between and in their stead is told by them alone; the loop
comes to its end in as many turns as there are places, which are no more than the places that are counted. -/
namespace ByteFlow.Search
open ChunkQueue (slice? slice?_of_le)

variable {before text : List UInt8} {start : Nat} {places : List Nat}

/-! Tilings -/

/-- Each place is the first from `start` on where the pattern stands, and the next ones follow behind it, up to a rest
in which it does not stand any more. -/
inductive Tiles (pattern text : List UInt8) : Nat → List Nat → Prop
  | done {start : Nat} (missing : ∀ i, start ≤ i → ¬ OccursAt pattern text i) : Tiles pattern text start []
  | hit {start place : Nat} {rest : List Nat} (later : start ≤ place) (occurs : OccursAt pattern text place)
      (first : ∀ j, start ≤ j → j < place → ¬ OccursAt pattern text j)
      (onward : Tiles pattern text (place + pattern.length) rest) : Tiles pattern text start (place :: rest)

/-- The text from `start` on, with `after` in the stead of the `width` bytes at each place. -/
def splice (text after : List UInt8) (width start : Nat) : List Nat → List UInt8
  | [] => text.drop start
  | place :: rest => (text.drop start).take (place - start) ++ after ++ splice text after width (place + width) rest

private theorem exists_tiles (some : before ≠ []) (text : List UInt8) (start : Nat) :
    ∃ places, Tiles before text start places := by
  have long := List.length_pos_of_ne_nil some
  induction left : text.length - start using Nat.strongRecOn generalizing start with
  | ind _ ih =>
    subst left
    cases found : firstFrom? before text start with
    | none => exact ⟨[], .done (firstFrom?_eq_none_iff.mp found)⟩
    | some place =>
      obtain ⟨later, occurs, first⟩ := firstFrom?_eq_some_iff.mp found
      have := occurs.1
      obtain ⟨rest, onward⟩ := ih _ (by omega) (place + before.length) rfl
      exact ⟨place :: rest, .hit later occurs first onward⟩

/-- The walk from the left writes the text that its tiling tells. -/
private theorem Tiles.substitute_eq (after : List UInt8) (some : before ≠ []) (tiles : Tiles before text start places) :
    substitute before after (text.drop start) = splice text after before.length start places := by
  induction tiles with
  | done missing => exact substitute_drop_of_none after some (firstFrom?_eq_none_iff.mpr missing)
  | hit later occurs first _ ih =>
    rw [substitute_drop_of_some after some (firstFrom?_eq_some_iff.mpr ⟨later, occurs, first⟩), ih, splice]

/-- The places of a tiling are among those where the pattern stands. -/
private theorem Tiles.length_le_card (some : before ≠ []) (tiles : Tiles before text start places) :
    places.length ≤ (placesFrom before text start).card := by
  induction tiles with
  | done => exact Nat.zero_le _
  | @hit start place rest later occurs first _ ih =>
    have behind : placesFrom before text (place + before.length) ⊆ placesFrom before text (place + 1) := by
      intro j member
      have long := List.length_pos_of_ne_nil some
      obtain ⟨beyond, there⟩ := mem_placesFrom.mp member
      exact mem_placesFrom.mpr ⟨by omega, there⟩
    have fresh : place ∉ placesFrom before text (place + 1) :=
      fun member => Nat.lt_irrefl place (mem_placesFrom.mp member).1
    rw [placesFrom_eq_insert (firstFrom?_eq_some_iff.mpr ⟨later, occurs, first⟩), Finset.card_insert_of_notMem fresh,
      List.length_cons]
    exact Nat.succ_le_succ (Nat.le_trans ih (Finset.card_le_card behind))

/-! The loop -/

/-- The replacing loop, in so many turns at most: `written` is what it has written, `last` the end of the occurrence
before and `hit` the one found behind it. A slice out of the text is refused. -/
def replaceLoop? (m : Matcher) (text after : List UInt8) (turns : Nat) (written : List UInt8) (last : Nat) (hit : Option Nat) :
    Option (List UInt8) :=
  match hit with
  | none => (slice? text last text.length).map (written ++ ·)
  | some place =>
    match turns with
    | 0 => none
    | turns + 1 => do
      let kept ← slice? text last place
      let next := place + m.pattern.length
      replaceLoop? m text after turns (written ++ kept ++ after) next (m.indexIn text.toArray next)

/-- A turn goes on from the end of the occurrence it replaces. -/
private theorem replaceLoop?_hit (after written : List UInt8) (turns : Nat) {place : Nat} (later : start ≤ place)
    (occurs : OccursAt before text place) :
    replaceLoop? (Matcher.ofPattern before) text after (turns + 1) written start (some place) =
      replaceLoop? (Matcher.ofPattern before) text after turns
        (written ++ (text.drop start).take (place - start) ++ after) (place + before.length)
        (firstFrom? before text (place + before.length)) := by
  have inside := occurs.1
  rw [replaceLoop?, slice?_of_le later (by omega), List.drop_take]
  simp only [Option.bind_eq_bind, Option.bind_some, Matcher.indexIn_ofPattern]
  rfl

/-- The loop takes one turn for each place of the tiling, and never leaves the text. -/
private theorem Tiles.replaceLoop?_eq (after written : List UInt8) (tiles : Tiles before text start places)
    (inside : start ≤ text.length) :
    replaceLoop? (Matcher.ofPattern before) text after places.length written start (firstFrom? before text start) =
      some (written ++ splice text after before.length start places) := by
  induction tiles generalizing written with
  | done missing =>
    rw [firstFrom?_eq_none_iff.mpr missing, replaceLoop?, slice?_of_le inside (Nat.le_refl _), List.take_length]
    rfl
  | @hit start place rest later occurs first _ ih =>
    rw [firstFrom?_eq_some_iff.mpr ⟨later, occurs, first⟩, List.length_cons, replaceLoop?_hit after written _ later occurs,
      ih _ occurs.1, splice]
    simp only [List.append_assoc]

end ByteFlow.Search

namespace ByteFlow.Handle
open Search

/-- Replacing every occurrence of a pattern replaces those of a tiling of the content from the left: each is the first
behind the one before, and the pattern stands no more behind the last. The loop ends after one turn for each of them,
and they are no more than the pattern is counted times. Where there is nothing to replace, the handle stays
altogether as it is, its storage included. -/
theorem replaceAll_tiles (held : List StorageId) (before after : List UInt8) (h : Handle) :
    (before ≠ [] → ∃ places, Tiles before h.content 0 places ∧
      (h.replaceAll held before after).content = splice h.content after before.length 0 places ∧
      replaceLoop? (Matcher.ofPattern before) h.content after places.length [] 0
        ((Matcher.ofPattern before).indexIn h.content.toArray 0) = some (h.replaceAll held before after).content ∧
      places.length ≤ count h.content before) ∧
    (before = [] ∨ h.length < before.length ∨ (∀ i, ¬ OccursAt before h.content i) →
      h.replaceAll held before after = h) := by
  constructor
  · intro some
    obtain ⟨places, tiles⟩ := exists_tiles some h.content 0
    have written := tiles.substitute_eq after some
    rw [List.drop_zero, ← content_replaceAll held] at written
    refine ⟨places, tiles, written, ?_, ?_⟩
    · rw [Matcher.indexIn_ofPattern, tiles.replaceLoop?_eq after [] (Nat.zero_le _), List.nil_append, written]
    · rw [count_eq_card some]
      exact tiles.length_le_card some
  · intro idle
    refine replaceAll_eq_self ?_
    rintro ⟨some, part⟩
    obtain ⟨place, there⟩ := exists_occursAt_iff.mpr part
    rcases idle with none | short | missing
    · exact some none
    · have := there.1
      rw [length_content] at this
      omega
    · exact missing place there

/-- Occurrences overlap, and what is put in their stead holds the pattern again; and one byte too few for a pattern. -/
theorem replaceAll_tiles_overlapping :
    let h := ofList [] [97, 97, 97, 97, 97]
    let before : List UInt8 := [97, 97]
    let after : List UInt8 := [97, 97, 97]
    let long : List UInt8 := [97, 97, 97, 97, 97, 97]
    before ≠ [] ∧ (∃ places, Tiles before h.content 0 places ∧
        (h.replaceAll [] before after).content = splice h.content after before.length 0 places ∧
        places.length ≤ count h.content before) ∧
      (h.replaceAll [] before after).content = [97, 97, 97, 97, 97, 97, 97] ∧
      h.length < long.length ∧ h.replaceAll [] long after = h := by
  intro h before after long
  have some : before ≠ [] := by decide
  have short : h.length < long.length := by decide
  obtain ⟨replaced, -⟩ := replaceAll_tiles [] before after h
  obtain ⟨-, idle⟩ := replaceAll_tiles [] long after h
  obtain ⟨places, tiles, written, -, few⟩ := replaced some
  exact ⟨some, ⟨places, tiles, written, few⟩, by decide +kernel, short, idle (.inr (.inl short))⟩

end ByteFlow.Handle
