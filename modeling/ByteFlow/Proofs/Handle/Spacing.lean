import ByteFlow.Proofs.Handle.Ownership
import ByteFlow.Proofs.Text.Words

/-! A handle on the words of a text with single spaces between them.
Text that has this form already is shared; any other is written anew, or in place by a handle that owns it. -/
namespace ByteFlow.Handle
open Text.Spacing (Worded isSimplified simplify?)

variable {held : List StorageId} {h : Handle} {ws : List (List UInt8)}

private theorem simplified_eq_self (idle : isSimplified h.content = true) : h.simplified held = h := by
  rw [simplified, if_pos idle]

/-- A changed copy is kept under a name of its own, if anything is kept. -/
private theorem sharesWith_simplified (changes : isSimplified h.content = false) :
    (h.simplified held).sharesWith h = false := by
  have placed : Placed h.id?.toList .absent (h.simplified held).storage := by
    rw [simplified, if_neg (by simp [changes])]
    dsimp only
    split
    · exact .absent
    · exact placed_allocate _ _ _ fun _ => List.mem_append_left held
  exact placed.unshared fun id named => by simp [named]

/-- The words of a text are joined by single spaces, in a copy and in place alike, and to do so again changes nothing,
not even the storage. A copy shares the storage of the text exactly if the text has this form already, unless there is
no storage to share, which no text of some bytes lacks. The pass over the bytes reads none that it has written. -/
theorem simplified_joins_words (held held' : List StorageId) (h : Handle) :
    ∃ ws, Worded h.content ws ∧ (h.simplified held).content = List.intercalate [Byte.space] ws ∧
      (h.intoSimplified held).content = List.intercalate [Byte.space] ws ∧
      (∀ g ∈ [h.simplified held, h.intoSimplified held], g.simplified held' = g ∧ g.intoSimplified held' = g) ∧
      ((h.simplified held).sharesWith h = true ↔
        h.content = List.intercalate [Byte.space] ws ∧ h.sharesWith h = true) ∧
      (h.content ≠ [] → h.sharesWith h = true) ∧
      simplify? h.content = some (List.intercalate [Byte.space] ws) := by
  obtain ⟨ws, worded⟩ := Text.Spacing.exists_worded h.content
  have joined : Text.Spacing.joinWords h.content = List.intercalate [Byte.space] ws :=
    congrArg (List.intercalate [Byte.space]) worded.words_eq
  have still (g : Handle) (same : g.content = List.intercalate [Byte.space] ws) :
      g.simplified held' = g ∧ g.intoSimplified held' = g := by
    have idle : isSimplified g.content = true := by
      rw [same]
      exact Text.Spacing.isSimplified_intercalate worded.isWord
    exact ⟨simplified_eq_self idle, intoSimplified_eq_self idle⟩
  have copy := (content_simplified held h).trans joined
  have own := (content_intoSimplified held h).trans joined
  refine ⟨ws, worded, copy, own, ?_, ?_, fun some => ?_, ?_⟩
  · simpa using ⟨still _ copy, still _ own⟩
  · rw [← worded.isSimplified_iff]
    cases idle : isSimplified h.content with
    | true => simp [simplified_eq_self idle]
    | false => simp [sharesWith_simplified idle]
  · have some : 0 < h.length := by
      rw [← length_content]
      exact List.length_pos_of_ne_nil some
    exact sharesWith_of_storage some rfl
  · rw [Text.Spacing.simplify?_eq, Text.Spacing.simplify_eq_joinWords, joined]

/-- Blanks of six kinds around two words, and between them. -/
theorem simplified_joins_words_ragged :
    let h := ofList [] [9, 32, 97, 11, 10, 98, 99, 12, 13]
    h.content ≠ [] ∧ h.sharesWith h = true ∧ (h.simplified []).content = [97, 32, 98, 99] ∧
      (h.simplified []).sharesWith h = false ∧ simplify? h.content = some [97, 32, 98, 99] := by
  intro h
  obtain ⟨ws, worded, joined, -, -, shares, storage, passed⟩ := simplified_joins_words [] [] h
  have split : ws = [[97], [98, 99]] := worded.words_eq.symm.trans (by decide)
  subst split
  have some : h.content ≠ [] := by decide
  have changes : ¬ h.content = List.intercalate [Byte.space] [[97], [98, 99]] := by decide
  have apart : (h.simplified []).sharesWith h = false :=
    Bool.eq_false_iff.mpr fun shared => changes (shares.mp shared).1
  exact ⟨some, storage some, joined, apart, passed⟩

end ByteFlow.Handle
