import ByteFlow.Proofs.Search.Forward
import ByteFlow.Search.Substitution

/-! Replacing by searching is replacing by walking.
Between two hits of the search the walk copies bytes, and at each hit it takes the same step. -/
namespace ByteFlow.Search

variable {before text : List UInt8} {start : Nat} (after : List UInt8)

private theorem isPrefixOf_drop_iff (some : before ≠ []) :
    before.isPrefixOf (text.drop start) = true ↔ OccursAt before text start := by
  have long := List.length_pos_of_ne_nil some
  rw [List.isPrefixOf_iff_prefix, List.prefix_iff_eq_take]
  constructor
  · intro same
    refine ⟨?_, same.symm⟩
    have := congrArg List.length same
    rw [List.length_take, List.length_drop] at this
    omega
  · exact fun occurs => occurs.2.symm

private theorem substitute_drop_of_occursAt (some : before ≠ []) (occurs : OccursAt before text start) :
    substitute before after (text.drop start) =
      after ++ substitute before after (text.drop (start + before.length)) := by
  have long := List.length_pos_of_ne_nil some
  have begins := (isPrefixOf_drop_iff some).mpr occurs
  have inside : start < text.length := by have := occurs.1; omega
  rw [List.drop_eq_getElem_cons inside] at begins ⊢
  rw [substitute, if_pos ⟨some, begins⟩, ← List.drop_eq_getElem_cons inside, List.drop_drop,
    Nat.max_eq_right long]

private theorem substitute_drop_of_not_occursAt (some : before ≠ []) (inside : start < text.length)
    (missing : ¬ OccursAt before text start) :
    substitute before after (text.drop start) =
      text[start] :: substitute before after (text.drop (start + 1)) := by
  rw [← isPrefixOf_drop_iff some] at missing
  rw [List.drop_eq_getElem_cons inside] at missing ⊢
  rw [substitute, if_neg fun begins => missing begins.2]

/-- Where the pattern stands no more, nothing changes. -/
theorem substitute_drop_of_none (some : before ≠ []) (missing : firstFrom? before text start = none) :
    substitute before after (text.drop start) = text.drop start := by
  rw [firstFrom?_eq_none_iff] at missing
  induction left : text.length - start generalizing start with
  | zero =>
    rw [List.drop_eq_nil_of_le (by omega)]
    simp [substitute]
  | succ n ih =>
    have inside : start < text.length := by omega
    rw [substitute_drop_of_not_occursAt after some inside (missing start (Nat.le_refl _)),
      ih (fun j later => missing j (by omega)) (by omega), ← List.drop_eq_getElem_cons inside]

/-- Up to the next occurrence bytes are copied. -/
theorem substitute_drop_of_some (some : before ≠ []) {hit : Nat}
    (found : firstFrom? before text start = Option.some hit) :
    substitute before after (text.drop start) =
      (text.drop start).take (hit - start) ++ after ++
        substitute before after (text.drop (hit + before.length)) := by
  obtain ⟨later, occurs, first⟩ := firstFrom?_eq_some_iff.mp found
  clear found
  induction left : hit - start generalizing start with
  | zero =>
    have : start = hit := by omega
    subst this
    rw [List.take_zero, List.nil_append, substitute_drop_of_occursAt after some occurs]
  | succ n ih =>
    have inside : start < text.length := by have := occurs.1; omega
    rw [substitute_drop_of_not_occursAt after some inside (first start (Nat.le_refl _) (by omega)),
      ih (by omega) (fun j from_next => first j (by omega)) (by omega),
      List.drop_eq_getElem_cons inside, List.take_succ_cons, List.cons_append, List.cons_append]

private theorem flatten_piecesFrom_ofPattern (some : before ≠ []) {hit : Nat}
    (found : firstFrom? before text start = Option.some hit) :
    (piecesFrom (Matcher.ofPattern before) text.toArray after start hit).flatten =
      substitute before after (text.drop start) := by
  have long := List.length_pos_of_ne_nil some
  induction left : text.length - start using Nat.strongRecOn generalizing start hit with
  | ind _ ih =>
    subst left
    have whole : (Matcher.ofPattern before).pattern = before := rfl
    obtain ⟨later, occurs, -⟩ := firstFrom?_eq_some_iff.mp found
    have inside := occurs.1
    rw [substitute_drop_of_some after some found, piecesFrom]
    simp only [whole, Matcher.indexIn_ofPattern, List.extract_toArray, List.size_toArray, List.flatten_cons,
      List.extract_eq_take_drop, List.append_assoc]
    congr 2
    split
    · next last =>
      rw [substitute_drop_of_none after some last, List.flatten_singleton, List.take_of_length_le (by simp)]
    · next i next =>
      have beyond := (firstFrom?_eq_some_iff.mp next).1
      rw [dif_pos ⟨by omega, beyond, by omega⟩]
      exact ih _ (by omega) next rfl

/-- Replacing gives the text of the walk, and no answer only where the walk changes nothing. -/
theorem getD_replaceAll? (text before : List UInt8) :
    ((replaceAll? text before after).map List.flatten).getD text = substitute before after text := by
  rw [replaceAll?]
  by_cases some : before = []
  · subst some
    have idle : ∀ text, substitute [] after text = text := by
      intro text
      induction text with
      | nil => simp [substitute]
      | cons b rest ih => rw [substitute, if_neg (by simp), ih]
    simp [idle]
  · have short : text.length < before.length → firstFrom? before text 0 = Option.none := by
      intro short
      exact firstFrom?_eq_none_iff.mpr fun j _ there => by have := there.1; omega
    cases found : firstFrom? before text 0 with
    | none =>
      have idle := substitute_drop_of_none after some found
      rw [List.drop_zero] at idle
      rw [idle]
      split
      · rfl
      · dsimp only
        rw [Matcher.indexIn_ofPattern, found]
        rfl
    | some =>
      have roomy : ¬ text.length < before.length := fun small => by simp [short small] at found
      have same := flatten_piecesFrom_ofPattern after some found
      rw [List.drop_zero] at same
      simp [some, roomy, Matcher.indexIn_ofPattern, found, same]

end ByteFlow.Search
