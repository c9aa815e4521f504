import ByteFlow.Proofs.Handle.Room

/-! Replacing a range by taking it out and putting other bytes in.
Bytes of the same number are written over the range instead, which comes to the same and never asks for more room. The
way is chosen by a sum that wraps around: at a range that begins behind all bytes and ends, wrapped, inside of them,
replacing breaks off. -/
namespace ByteFlow.Handle

/-- The bytes with `n` of them taken out and others put in; a result longer than any size is not put together. -/
def replaced (place n : Nat) (after bytes : List UInt8) : List UInt8 :=
  let kept := removed place n bytes
  if after = [] ∨ Word.maxValue < max place kept.length + after.length then kept else inserted place after kept

section
variable {place n : Nat} {after bytes : List UInt8}

private theorem removed_of_le (past : bytes.length ≤ place) : removed place n bytes = bytes := by
  rw [removed, List.take_of_length_le past, List.drop_eq_nil_of_le (by omega), List.append_nil]

private theorem inserted_removed {place n : Nat} {bytes s : List UInt8} (same : n = bytes.length)
    (inside : place + n ≤ s.length) : inserted place bytes (removed place n s) = overlaid place bytes s := by
  subst same
  have kept : (s.take place).length = place := by simp; omega
  have long : place ≤ (removed place bytes.length s).length := by
    rw [removed, List.length_append, kept]
    exact Nat.le_add_right ..
  have before : (removed place bytes.length s).take place = s.take place := List.take_left' kept
  have behind : (removed place bytes.length s).drop place = s.drop (place + bytes.length) :=
    List.drop_left' kept
  rw [inserted, overlaid, before, behind, Nat.sub_eq_zero_of_le long, List.replicate_zero, List.append_nil,
    List.take_of_length_le (show bytes.length ≤ s.length - place by omega)]

/-- Behind the end there is nothing to take out, and spaces lead up to the place. -/
private theorem replaced_past_end (past : bytes.length ≤ place) (some : after ≠ [])
    (fits : place + after.length ≤ Word.maxValue) :
    replaced place n after bytes = bytes ++ List.replicate (place - bytes.length) Byte.space ++ after := by
  have room : ¬ Word.maxValue < max place bytes.length + after.length := by omega
  simp only [replaced, removed_of_le past, some, room, false_or, if_false]
  rw [inserted, List.take_of_length_le past, List.drop_eq_nil_of_le past, List.append_nil]

/-- A range that reaches over the end takes out what there is. -/
private theorem replaced_over_end (inside : place ≤ bytes.length) (reaches : bytes.length ≤ place + n)
    (fits : place + after.length ≤ Word.maxValue) : replaced place n after bytes = bytes.take place ++ after := by
  have kept : removed place n bytes = bytes.take place := by
    rw [removed, List.drop_eq_nil_of_le reaches, List.append_nil]
  have length : (bytes.take place).length = place := by rw [List.length_take]; omega
  by_cases none : after = []
  · simp [replaced, kept, none]
  · have room : ¬ Word.maxValue < max place place + after.length := by omega
    simp only [replaced, kept, length, none, room, false_or, if_false]
    rw [inserted, length, Nat.sub_self, List.replicate_zero, List.append_nil, List.take_take, Nat.min_self,
      List.drop_eq_nil_of_le (by omega), List.append_nil]

/-- Two sequences of real length fill no more than all sizes, so only a place behind both can lie too far. -/
private theorem replaced_of_overflow (far : Word.maxValue < max place (removed place n bytes).length + after.length)
    (real : bytes.length ≤ Word.requestLimit) (real' : after.length ≤ Word.requestLimit) :
    replaced place n after bytes = bytes := by
  have twice : Word.requestLimit + Word.requestLimit < Word.maxValue := by decide
  have short := length_removed place n bytes
  have past : bytes.length ≤ place := by omega
  simp only [replaced, far, or_true, if_true]
  exact removed_of_le past

end

variable {held : List StorageId} {place n : Nat} {after : List UInt8} {h : Handle}

private theorem content_insert_remove (held : List StorageId) (place n : Nat) (after : List UInt8) (h : Handle) :
    ((h.remove held place n).insert held place after).content = replaced place n after h.content := by
  have length : (h.remove held place n).length = (removed place n h.content).length := by
    rw [← length_content, content_remove]
  by_cases far : Word.maxValue < max place (removed place n h.content).length + after.length
  · rw [insert_eq_self (.inr (length ▸ far)), content_remove]
    simp only [replaced, far, or_true, if_true]
  · rw [content_insert held place after _ (by omega), content_remove]
    simp only [replaced, far, or_false]

/-- The range begins behind all bytes, and its end wraps around to a place inside of them. -/
def SeemsInside (place n : Nat) (after : List UInt8) (h : Handle) : Prop :=
  n = after.length ∧ Word.modulus ≤ place + n ∧ place + n ≤ Word.modulus + h.length

instance (place n : Nat) (after : List UInt8) (h : Handle) : Decidable (SeemsInside place n after h) :=
  inferInstanceAs (Decidable (_ ∧ _))

private theorem replace_of_seemsInside (first : place ≤ Word.maxValue) (count : n ≤ Word.maxValue)
    (real : h.length ≤ Word.maxValue) (seems : SeemsInside place n after h) :
    h.replace held place n after = .error ⟨.wrappedEnd, h.detach held⟩ := by
  obtain ⟨same, wraps, inside⟩ := seems
  have last : Word.maxValue + 1 = Word.modulus := rfl
  have sum := Word.addWrapped_of_wraps (by omega) (by omega) wraps
  rw [replace]
  rw [if_pos ⟨same, by omega⟩, if_neg (by omega), if_neg (by omega)]

/-- Writing over the range gives what taking it out and putting the bytes in gives. -/
private theorem content_replace_of_not_seemsInside (held : List StorageId) (first : place ≤ Word.maxValue)
    (count : n ≤ Word.maxValue)
    (real : n = after.length → place + n ≤ h.length → h.length ≤ Word.maxValue) (plain : ¬ SeemsInside place n after h) :
    ∃ r, h.replace held place n after = .ok r ∧ r.content = replaced place n after h.content := by
  have last : Word.maxValue + 1 = Word.modulus := rfl
  rw [replace]
  split
  · next overlay =>
    obtain ⟨same, inside⟩ := overlay
    have stays : place + n < Word.modulus := by
      by_contra wraps
      have sum := Word.addWrapped_of_wraps (by omega) (by omega) (Nat.not_lt.mp wraps)
      exact plain ⟨same, by omega, by omega⟩
    rw [Word.addWrapped_of_lt stays] at inside
    split
    · next none =>
      have nothing : after = [] := List.length_eq_zero_iff.mp (same.symm.trans none)
      exact ⟨h, rfl, by simp [replaced, nothing, none, removed]⟩
    · next some =>
      have something : after ≠ [] := by rintro rfl; exact some same
      have short := length_removed place n h.content
      rw [length_content] at short
      have sized := real same inside
      have room : ¬ Word.maxValue < max place (removed place n h.content).length + after.length := by omega
      refine ⟨_, rfl, ?_⟩
      rw [content_store]
      simp only [replaced, something, room, false_or, if_false]
      exact (inserted_removed same (by simpa using inside)).symm
  · exact ⟨_, rfl, content_insert_remove held place n after h⟩

/-- The same where all sums of sizes are sizes. -/
theorem content_replace (held : List StorageId) (place n : Nat) (after : List UInt8) (h : Handle)
    (range : place + n ≤ Word.maxValue)
    (fits : max place (removed place n h.content).length + after.length ≤ Word.maxValue) :
    ∃ r, h.replace held place n after = .ok r ∧
      r.content = if after = [] then removed place n h.content
        else inserted place after (removed place n h.content) := by
  have last : Word.maxValue + 1 = Word.modulus := rfl
  have short := length_removed place n h.content
  rw [length_content] at short
  have plain : ¬ SeemsInside place n after h := fun seems => by
    have wraps := seems.2.1
    omega
  obtain ⟨r, done, content⟩ := @content_replace_of_not_seemsInside place n after h held (by omega) (by omega)
    (fun _ _ => by omega) plain
  refine ⟨r, done, ?_⟩
  rw [content]
  simp only [replaced, Nat.not_lt.mpr fits, or_false]

/-! Room -/

/-- What a caller sees of a change: its fault, if it broke off, and the content that there is afterwards. -/
def seen : Except (Broken Handle) Handle → Option Fault × List UInt8
  | .ok h => (none, h.content)
  | .error broken => (some broken.fault, broken.left.content)

/-- Bytes taken out, and then others put in. -/
def removeThenInsert (held : List StorageId) (place n : Nat) (after : List UInt8) (h : Handle) :
    Except (Broken Handle) Handle := do
  let kept ← (Change.remove place n).attempt held h
  (Change.insert place after).attempt held kept

private theorem removeThenInsert_eq (held : List StorageId) (place n : Nat) (after : List UInt8) (h : Handle) :
    h.removeThenInsert held place n after = (Change.insert place after).attempt held (h.remove held place n) := by
  have taken : (Change.remove place n).attempt held h = .ok (h.remove held place n) := if_pos (Nat.zero_le _)
  rw [removeThenInsert, taken]
  rfl

/-- What asks for no more than a storage can have is done. -/
private theorem attempt_insert_of_le (had : h.roomToInsert held place after.length ≤ Storage.limit) :
    (Change.insert place after).attempt held h = .ok (h.insert held place after) := if_pos had

private theorem roomToInsert_of_nothing (nothing : after = [] ∨ Word.maxValue < max place h.length + after.length) :
    h.roomToInsert held place after.length = 0 := by
  rw [roomToInsert]
  split
  · rfl
  · next some =>
    have far : Word.maxValue < max place h.length + after.length :=
      nothing.resolve_left fun none => some (by rw [none, List.length_nil])
    rw [Word.add?, if_neg (Nat.not_le.mpr far)]

/-- An insertion asks for room for all bytes that there are then. -/
private theorem le_roomToInsert (some : after ≠ []) (fits : max place h.length + after.length ≤ Word.maxValue) :
    max place h.length + after.length ≤ h.roomToInsert held place after.length := by
  have long : after.length ≠ 0 := fun none => some (List.length_eq_zero_iff.mp none)
  rw [roomToInsert, if_neg long, Word.add?, if_pos fits]
  dsimp only
  split
  · exact Storage.needed_le_grown ..
  · rw [roomFor]
    exact Storage.needed_le_grown ..

/-- Growing at most doubles, so an insertion that makes for half of what a storage can have is never refused. -/
private theorem roomToInsert_le (granted : h.storage.Granted)
    (half : 2 * (max place h.length + after.length) ≤ Storage.limit) :
    h.roomToInsert held place after.length ≤ Storage.limit := by
  have least : 8 ≤ Storage.limit := by decide
  have room := granted.room_le
  have grown (asked m : Nat) (asks : asked ≤ max place h.length + after.length)
      (makes : m ≤ max place h.length + after.length) : h.roomFor held asked m ≤ Storage.limit := by
    have bound := Storage.grown_le (if h.isDetached held then h.storage.room else max asked h.length) m
    rw [roomFor]
    split at bound <;> simp_all <;> omega
  rw [roomToInsert]
  split
  · exact Nat.zero_le _
  · rw [Word.add?]
    split
    · exact Nat.zero_le _
    · next room added =>
      split at added
      · cases added
        split
        · have once := grown (max place h.length + after.length) place (Nat.le_refl _) (by omega)
          have twice := Storage.grown_le (h.roomFor held (max place h.length + after.length) place)
            (max place h.length + after.length)
          omega
        · exact grown _ _ (Nat.le_refl _) (Nat.le_refl _)
      · cases added

/-- A storage of its own has room for what was shown before the removal. -/
private theorem length_le_room_remove (granted : h.storage.Granted) (place n : Nat)
    (detached : (h.remove held place n).isDetached held = true) : h.length ≤ (h.remove held place n).storage.room := by
  rw [remove] at detached ⊢
  split at detached
  · next nothing =>
    rw [if_pos nothing]
    exact length_le_room granted detached
  · next some =>
    rw [if_neg some]
    dsimp only at detached ⊢
    split at detached
    · next ending =>
      rw [if_pos ending]
      have shorter : place < h.length := by omega
      simp only [resize, resizeWith, shorter, dite_true] at detached ⊢
      split at detached
      · cases detached
      · next kept =>
        rw [if_neg kept]
        exact length_le_room granted detached
    · next inner =>
      rw [if_neg inner]
      split at detached
      · next front =>
        obtain ⟨id, bytes, capacity, -, start, -⟩ := isDetached_iff.mp detached
        have moved : h.start + min n (h.length - place) = 0 := start
        omega
      · next behind =>
        rw [if_neg behind, room_edit, roomFor]
        split
        · next alone => exact Nat.le_trans (length_le_room granted alone) (Storage.le_grown ..)
        · exact Nat.le_trans (Nat.le_max_left ..) (Storage.le_grown ..)

/-- Bytes of the number of those taken out always have room. -/
private theorem roomToInsert_remove_le (granted : h.storage.Granted) (same : n = after.length)
    (inside : place + n ≤ h.length) :
    (h.remove held place n).roomToInsert held place after.length ≤ Storage.limit := by
  have small := length_le_limit granted
  have length : (h.remove held place n).length = h.length - min n (h.length - place) := by
    rw [← length_content, content_remove, length_removed, length_content]
  rw [roomToInsert]
  split
  · exact Nat.zero_le _
  · have whole : max place (h.remove held place n).length + after.length = h.length := by omega
    have sized : h.length ≤ Word.maxValue := Nat.le_trans small (by decide)
    rw [Word.add?, whole, if_pos sized]
    dsimp only
    rw [if_neg (by omega)]
    by_cases detached : (h.remove held place n).isDetached held = true
    · rw [roomFor_of_isDetached _ _ detached, Storage.grown_of_le (length_le_room_remove granted place n detached)]
      exact (granted_remove granted place n).room_le
    · rw [roomFor_of_not_isDetached _ _ (by simpa using detached), Storage.grown_of_le (Nat.le_max_left ..)]
      omega

/-- Where nothing is written over, the two steps are what is done. -/
private theorem attempt_replace_beside (beside : ¬(n = after.length ∧ Word.addWrapped place n ≤ h.length)) :
    (Change.replace place n after).attempt held h = h.removeThenInsert held place n after := by
  rw [removeThenInsert_eq, Change.attempt, Change.attempt, Change.apply, Change.apply, Change.need, Change.need, replace,
    if_neg beside, if_neg beside]
  rfl

private theorem attempt_replace_over (atop : n = after.length ∧ Word.addWrapped place n ≤ h.length) :
    (Change.replace place n after).attempt held h = h.replace held place n after := by
  rw [Change.attempt, Change.need, if_pos atop, if_pos (Nat.zero_le _)]
  rfl

/-- Unless the range only seems to lie inside, replacing comes to what the two steps come to. -/
private theorem seen_attempt_replace (held : List StorageId) (first : place ≤ Word.maxValue)
    (granted : h.storage.Granted)
    (real : after.length ≤ Word.requestLimit) (plain : ¬ SeemsInside place n after h) :
    seen ((Change.replace place n after).attempt held h) = seen (h.removeThenInsert held place n after) := by
  by_cases atop : n = after.length ∧ Word.addWrapped place n ≤ h.length
  · have last : Word.maxValue + 1 = Word.modulus := rfl
    have small : Word.requestLimit ≤ Word.maxValue := by decide
    have sized : h.length ≤ Word.maxValue := Nat.le_trans (length_le_limit granted) small
    obtain ⟨same, inside⟩ := atop
    obtain ⟨r, done, content⟩ := content_replace_of_not_seemsInside held first (by omega) (fun _ _ => sized) plain
    have stays : place + n < Word.modulus := by
      by_contra wraps
      have sum := Word.addWrapped_of_wraps (by omega) (by omega) (Nat.not_lt.mp wraps)
      exact plain ⟨same, by omega, by omega⟩
    have lies : place + n ≤ h.length := by rwa [Word.addWrapped_of_lt stays] at inside
    rw [attempt_replace_over ⟨same, inside⟩, done, removeThenInsert_eq,
      attempt_insert_of_le (roomToInsert_remove_le granted same lies), seen, seen, content, content_insert_remove]
  · rw [attempt_replace_beside atop]

/-- Where the range only seems to lie inside, the two steps change nothing. -/
private theorem removeThenInsert_of_seemsInside (granted : h.storage.Granted) (real : after.length ≤ Word.requestLimit)
    (seems : SeemsInside place n after h) : h.removeThenInsert held place n after = .ok h := by
  obtain ⟨same, wraps, -⟩ := seems
  have small := length_le_limit granted
  have limits : Storage.limit = Word.requestLimit ∧ Word.requestLimit + Word.requestLimit < Word.maxValue ∧
      Word.maxValue < Word.modulus := by decide
  have past : h.length ≤ place := by omega
  have kept : h.remove held place n = h := by rw [remove, if_pos (.inr past)]
  have far : Word.maxValue < max place h.length + after.length := by omega
  rw [removeThenInsert_eq, kept, attempt_insert_of_le ((roomToInsert_of_nothing (.inr far)).symm ▸ Nat.zero_le _),
    insert_eq_self (.inr far)]

/-- What is done has the bytes that are taken out and put in. -/
private theorem content_of_attempt_replace (first : place ≤ Word.maxValue) (granted : h.storage.Granted)
    (real : after.length ≤ Word.requestLimit) (plain : ¬ SeemsInside place n after h) {r : Handle}
    (done : (Change.replace place n after).attempt held h = .ok r) : r.content = replaced place n after h.content := by
  have agrees := seen_attempt_replace held first granted real plain
  rw [done, removeThenInsert_eq, Change.attempt] at agrees
  split at agrees
  · rw [← content_insert_remove held]
    exact congrArg Prod.snd agrees
  · cases congrArg Prod.fst agrees

/-- More than a storage can have is asked for in both ways, after the bytes were taken out. -/
private theorem attempt_replace_of_tooLarge (granted : h.storage.Granted) (some : after ≠ [])
    (large : Storage.limit < max place (h.remove held place n).length + after.length)
    (fits : max place (h.remove held place n).length + after.length ≤ Word.maxValue) :
    (Change.replace place n after).attempt held h = .error ⟨.tooLarge, h.remove held place n⟩ ∧
      h.removeThenInsert held place n after = .error ⟨.tooLarge, h.remove held place n⟩ := by
  have length : (h.remove held place n).length = h.length - min n (h.length - place) := by
    rw [← length_content, content_remove, length_removed, length_content]
  have small := length_le_limit granted
  have last : Word.maxValue + 1 = Word.modulus := rfl
  have beside : ¬(n = after.length ∧ Word.addWrapped place n ≤ h.length) := by
    rintro ⟨same, inside⟩
    rw [Word.addWrapped_of_lt (by omega)] at inside
    omega
  have refused : (Change.insert place after).attempt held (h.remove held place n) =
      .error ⟨.tooLarge, h.remove held place n⟩ :=
    if_neg (Nat.not_le.mpr (Nat.lt_of_lt_of_le large (le_roomToInsert some fits)))
  rw [attempt_replace_beside beside, removeThenInsert_eq]
  exact ⟨refused, refused⟩

/-- Replacing is done where twice the bytes that there are then could be had, and where nothing is put in. -/
private theorem attempt_replace_ok (first : place ≤ Word.maxValue) (granted : h.storage.Granted)
    (real : after.length ≤ Word.requestLimit) (plain : ¬ SeemsInside place n after h)
    (little : after = [] ∨ Word.maxValue < max place (h.remove held place n).length + after.length ∨
      2 * (max place (h.remove held place n).length + after.length) ≤ Storage.limit) :
    ∃ r, (Change.replace place n after).attempt held h = .ok r := by
  have had : (h.remove held place n).roomToInsert held place after.length ≤ Storage.limit := by
    rcases little with none | far | half
    · exact (roomToInsert_of_nothing (.inl none)).symm ▸ Nat.zero_le _
    · exact (roomToInsert_of_nothing (.inr far)).symm ▸ Nat.zero_le _
    · exact roomToInsert_le (granted_remove granted place n) half
  have agrees := seen_attempt_replace held first granted real plain
  rw [removeThenInsert_eq, attempt_insert_of_le had] at agrees
  cases done : (Change.replace place n after).attempt held h with
  | ok r => exact ⟨r, rfl⟩
  | error =>
    rw [done] at agrees
    cases congrArg Prod.fst agrees

/-- Replacing comes to what taking out and then putting in comes to, in content as in fault, except where the wrapped end
of the range seems to lie inside: there, and only there, it breaks off while the two steps change nothing. The one fault
that both have is to ask for more room than a storage can have. What is done cuts a range over the end, leads up to a
place behind the end by spaces, and leaves the bytes as they are if the result would be longer than any size. -/
theorem replace_agrees_iff (held : List StorageId) (place n : Nat) (after : List UInt8) (h : Handle)
    (first : place ≤ Word.maxValue) (count : n ≤ Word.maxValue) (real : after.length ≤ Word.requestLimit)
    (granted : h.storage.Granted) :
    let direct := (Change.replace place n after).attempt held h
    let twoSteps := h.removeThenInsert held place n after
    let total := max place (h.remove held place n).length + after.length
    (seen direct = seen twoSteps ↔ ¬ SeemsInside place n after h) ∧
      (SeemsInside place n after h →
        direct = .error ⟨.wrappedEnd, h.detach held⟩ ∧ (h.detach held).content = h.content ∧ twoSteps = .ok h) ∧
      (¬ SeemsInside place n after h → after = [] ∨ Word.maxValue < total ∨ 2 * total ≤ Storage.limit →
        ∃ r, direct = .ok r) ∧
      (after ≠ [] → Storage.limit < total → total ≤ Word.maxValue →
        direct = .error ⟨.tooLarge, h.remove held place n⟩ ∧ twoSteps = .error ⟨.tooLarge, h.remove held place n⟩) ∧
      ∀ r, direct = .ok r →
        (place ≤ h.length → h.length ≤ place + n → place + after.length ≤ Word.maxValue →
          r.content = h.content.take place ++ after) ∧
        (h.length ≤ place → after ≠ [] → place + after.length ≤ Word.maxValue →
          r.content = h.content ++ List.replicate (place - h.length) Byte.space ++ after) ∧
        (Word.maxValue < total → r.content = h.content) := by
  intro direct twoSteps total
  have sized : h.length ≤ Word.requestLimit := length_le_limit granted
  have small : Word.requestLimit ≤ Word.maxValue := by decide
  have broken (seems : SeemsInside place n after h) : direct = .error ⟨.wrappedEnd, h.detach held⟩ := by
    obtain ⟨same, wraps, inside⟩ := seems
    have last : Word.maxValue + 1 = Word.modulus := rfl
    have sum := Word.addWrapped_of_wraps (a := place) (b := n) (by omega) (by omega) wraps
    exact (attempt_replace_over ⟨same, by omega⟩).trans
      (replace_of_seemsInside first count (Nat.le_trans sized small) ⟨same, wraps, inside⟩)
  have still (seems : SeemsInside place n after h) : twoSteps = .ok h :=
    removeThenInsert_of_seemsInside granted real seems
  refine ⟨⟨fun agrees seems => ?_, seen_attempt_replace held first granted real⟩,
    fun seems => ⟨broken seems, content_detach .., still seems⟩,
    attempt_replace_ok first granted real,
    attempt_replace_of_tooLarge granted, fun r done => ?_⟩
  · rw [broken seems, still seems] at agrees
    cases congrArg Prod.fst agrees
  · have plain : ¬ SeemsInside place n after h := fun seems => by cases (broken seems).symm.trans done
    rw [content_of_attempt_replace first granted real plain done]
    refine ⟨fun inside reaches fits => ?_, fun past some fits => ?_, fun far => ?_⟩
    · exact replaced_over_end (by simpa using inside) (by simpa using reaches) fits
    · rw [replaced_past_end (by simpa using past) some fits, length_content]
    · have length : (h.remove held place n).length = (removed place n h.content).length := by
        rw [← length_content, content_remove]
      exact replaced_of_overflow (length ▸ far) (by simpa using sized) real

/-- A range over the end, one behind it, one whose wrapped end lies behind it too, and a place that no storage reaches. -/
theorem replace_agrees_iff_bounds :
    let h := ofList [] [97, 98, 99]
    (∃ r, (Change.replace 1 9 [120]).attempt [] h = .ok r ∧ r.content = [97, 120]) ∧
      (∃ r, (Change.replace 5 Word.maxValue [120]).attempt [] h = .ok r ∧ r.content = [97, 98, 99, 32, 32, 120]) ∧
      (∃ r, (Change.replace Word.maxValue 5 [1, 2, 3, 4, 5]).attempt [] h = .ok r ∧ r.content = [97, 98, 99]) ∧
      (Change.replace (Word.requestLimit + 1) 1 [120, 121]).attempt [] h = .error ⟨.tooLarge, h⟩ := by
  intro h
  obtain ⟨-, -, cuts, -, cut⟩ :=
    replace_agrees_iff [] 1 9 [120] h (by decide) (by decide) (by decide) (by decide)
  obtain ⟨-, -, pads, -, padded⟩ :=
    replace_agrees_iff [] 5 Word.maxValue [120] h (by decide) (by decide) (by decide) (by decide)
  obtain ⟨-, -, stays, -, kept⟩ :=
    replace_agrees_iff [] Word.maxValue 5 [1, 2, 3, 4, 5] h (by decide) (by decide) (by decide) (by decide)
  obtain ⟨-, -, -, large, -⟩ :=
    replace_agrees_iff [] (Word.requestLimit + 1) 1 [120, 121] h (by decide) (by decide) (by decide) (by decide)
  obtain ⟨a, first⟩ := cuts (by decide) (.inr (.inr (by decide)))
  obtain ⟨b, second⟩ := pads (by decide) (.inr (.inr (by decide)))
  obtain ⟨c, third⟩ := stays (by decide) (.inr (.inl (by decide)))
  refine ⟨⟨a, first, ((cut a first).1 ?_ ?_ ?_).trans ?_⟩, ⟨b, second, ((padded b second).2.1 ?_ ?_ ?_).trans ?_⟩,
    ⟨c, third, ((kept c third).2.2 ?_).trans ?_⟩, (large ?_ ?_ ?_).1⟩
  all_goals decide

/-- The last place of all and one byte from there on: the end wraps around to the beginning. -/
theorem replace_wraps :
    let h := ofList [] [97, 98, 99]
    (Change.replace Word.maxValue 1 [120]).attempt [] h = .error ⟨.wrappedEnd, h.detach []⟩ ∧
      h.removeThenInsert [] Word.maxValue 1 [120] = .ok h := by
  intro h
  have seems : SeemsInside Word.maxValue 1 [120] h := by decide
  refine ⟨?_, removeThenInsert_of_seemsInside (by decide) (by decide) seems⟩
  rw [attempt_replace_over (by decide), replace_of_seemsInside (by decide) (by decide) (by decide) seems]

end ByteFlow.Handle
