import ByteFlow.Proofs.Handle.Ownership

/-! How long reserved room lasts.
The room is that of the storage, the reservation that of the handle. A write that finds the handle detached leaves it on
its storage, where all room stays; one that does not moves it, and the new storage has the room that its bytes need. -/
namespace ByteFlow.Handle

variable {held : List StorageId} {h g r : Handle} {place n asked : Nat} {bytes after : List UInt8} {moves : Prop}

private theorem capacity_of_isDetached (detached : h.isDetached held = true) : h.capacity held = h.storage.room := by
  obtain ⟨id, bytes, capacity, stored, -, -⟩ := isDetached_iff.mp detached
  simp only [Handle.capacity, stored, detached, if_true, Storage.room]

private theorem isDetached_mono {more : List StorageId} (fewer : ∀ id ∈ held, id ∈ more)
    (detached : h.isDetached more = true) :
    h.isDetached held = true := by
  obtain ⟨id, bytes, capacity, stored, start, free⟩ := isDetached_iff.mp detached
  exact isDetached_iff.mpr ⟨id, bytes, capacity, stored, start, fun member => free (fewer id member)⟩

/-! Moving -/

/-- What becomes of the room of a handle: it stays, or the handle moves to a storage of its own, whose room comes from what
is shown before and after, or is what is asked for. -/
structure RoomAfter (held : List StorageId) (h : Handle) (asked : Nat) (moves : Prop) (r : Handle) : Prop where
  kept : ¬ moves → h.storage.room ≤ r.storage.room
  moved : moves → r.isDetached held = true ∧ r.storage.room ≤ max (2 * max h.length r.length) (max 8 asked)

private theorem RoomAfter.of_storage (idle : ¬ moves) (same : r.storage = h.storage) : RoomAfter held h asked moves r :=
  ⟨fun _ => Nat.le_of_eq (congrArg Storage.room same).symm, fun moves => absurd moves idle⟩

private theorem RoomAfter.congr {other : Prop} (room : RoomAfter held h asked moves r) (same : other ↔ moves) :
    RoomAfter held h asked other r :=
  propext same ▸ room

private theorem RoomAfter.mono {more : List StorageId} (room : RoomAfter more h asked moves r)
    (fewer : ∀ id ∈ held, id ∈ more) :
    RoomAfter held h asked moves r :=
  ⟨room.kept, fun moves => (room.moved moves).imp_left (isDetached_mono fewer)⟩

private theorem RoomAfter.refl : RoomAfter held h 0 False h := .of_storage id rfl

/-- To ask for more leaves more room for a storage. -/
theorem RoomAfter.asks {more : Nat} (room : RoomAfter held h asked moves r) (asks : asked ≤ more) :
    RoomAfter held h more moves r := by
  refine ⟨room.kept, fun moves => (room.moved moves).imp_right fun bound => ?_⟩
  omega

/-- A write behind a step that may have moved the handle. -/
private theorem RoomAfter.edit {before : Prop} {earlier room : Nat} {f : List UInt8 → List UInt8}
    (first : RoomAfter held h earlier before g) (when : moves ↔ before ∨ g.isDetached held = false)
    (short : g.length ≤ max h.length (f g.content).length)
    (small : max earlier room ≤ max h.length (max (f g.content).length asked)) :
    RoomAfter held h asked moves (g.edit held room f) := by
  have length := length_edit held room f g
  refine ⟨fun stays => ?_, fun moves => ⟨isDetached_edit .., ?_⟩⟩
  · rw [when, not_or, Bool.not_eq_false] at stays
    rw [room_edit, roomFor_of_isDetached _ _ stays.2]
    exact Nat.le_trans (first.kept stays.1) (Storage.le_grown ..)
  · rw [room_edit]
    by_cases detached : g.isDetached held = true
    · have moved := first.moved ((when.mp moves).resolve_right (by simp [detached]))
      have grown := Storage.grown_le g.storage.room (f g.content).length
      rw [roomFor_of_isDetached _ _ detached]
      omega
    · have grown := Storage.grown_le (max room g.length) (f g.content).length
      rw [roomFor_of_not_isDetached _ _ (by simpa using detached)]
      omega

/-- A write on its own. -/
private theorem roomAfter_edit {room : Nat} {f : List UInt8 → List UInt8} (when : moves ↔ h.isDetached held = false)
    (small : room ≤ max h.length (max (f h.content).length asked)) : RoomAfter held h asked moves (h.edit held room f) :=
  RoomAfter.refl.edit (by rw [when, false_or]) (Nat.le_max_left ..) (by omega)

private theorem isDetached_resizeWith (b : UInt8) (reserved : h.reserved = true) :
    (h.resizeWith held n b).isDetached held = (decide (h.length < n) || h.isDetached held) := by
  rw [resizeWith]
  split
  · next smaller =>
    have grows : ¬ h.length < n := by omega
    rw [if_neg (by simp [reserved])]
    simp only [grows, decide_false, Bool.false_or]
    rfl
  · split
    · next same => simp [same]
    · have grows : h.length < n := by omega
      simp [grows, isDetached_edit]

private theorem roomAfter_resizeWith (b : UInt8) (reserved : h.reserved = true) :
    RoomAfter held h 0 (h.length < n ∧ h.isDetached held = false) (h.resizeWith held n b) := by
  by_cases grows : h.length < n
  · rw [resizeWith, dif_neg (by omega), if_neg (by omega)]
    refine roomAfter_edit (by simp [grows]) ?_
    simp only [List.length_append, List.length_replicate, length_content]
    omega
  · exact .of_storage (fun moves => grows moves.1) (storage_resizeWith b (Nat.le_of_not_lt grows) (.inr (.inr reserved)))

private theorem room_withRoom (capacity : Nat) (detached : h.isDetached held = true) :
    (h.withRoom capacity).storage.room = Storage.grown h.storage.room capacity := by
  obtain ⟨_, _, _, heap, -, -⟩ := isDetached_iff.mp detached
  rw [withRoom]
  split
  · next old stored => exact congrArg (Storage.grown · capacity) (congrArg Storage.room stored).symm
  · next plain => exact (plain _ _ _ heap).elim

private theorem isDetached_withRoom (capacity : Nat) : (h.withRoom capacity).isDetached held = h.isDetached held := by
  rw [withRoom]
  split
  · next id bytes old stored => simp only [isDetached, stored]
  · rfl

private theorem roomAfter_reserve (capacity : Nat) :
    RoomAfter held h capacity (0 < capacity ∧ h.isDetached held = false) (h.reserve held capacity) := by
  let pinned : Handle := { h with reserved := true }
  have same : pinned.isDetached held = h.isDetached held := rfl
  unfold reserve
  dsimp only
  split
  · next ready =>
    refine .of_storage ?_ rfl
    rintro ⟨some, apart⟩
    rcases ready with none | ⟨detached, -⟩
    · omega
    · exact Bool.noConfusion (detached.symm.trans apart)
  · next wanting =>
    have some : 0 < capacity := Nat.pos_of_ne_zero fun none => wanting (.inl none)
    have detached := isDetached_edit held capacity id pinned
    have length : ((pinned.edit held capacity id).withRoom capacity).length = h.length := by
      rw [← length_content, content_withRoom, content_edit]
      exact length_content h
    have written : RoomAfter held pinned capacity (pinned.isDetached held = false) (pinned.edit held capacity id) :=
      roomAfter_edit Iff.rfl (by omega)
    refine ⟨fun stays => ?_, fun moves => ⟨(isDetached_withRoom capacity).trans detached, ?_⟩⟩
    · rw [room_withRoom capacity detached]
      exact Nat.le_trans (written.kept fun apart => stays ⟨some, apart⟩) (Storage.le_grown ..)
    · have enough : capacity ≤ (pinned.edit held capacity id).storage.room := by
        rw [room_edit, roomFor_of_not_isDetached _ _ (h := pinned) moves.2]
        exact Nat.le_trans (Nat.le_max_left ..) (Storage.le_grown ..)
      have grown := (written.moved moves.2).2
      have shown : (pinned.edit held capacity id).length = h.length := (length_edit ..).trans (length_content pinned)
      have whole : pinned.length = h.length := rfl
      rw [room_withRoom capacity detached, Storage.grown_of_le enough, length]
      omega

/-- Reserving gives the room that is asked for. -/
private theorem le_room_reserve (capacity : Nat) : capacity ≤ (h.reserve held capacity).storage.room := by
  unfold reserve
  dsimp only
  split
  · next ready =>
    rcases ready with none | ⟨detached, fits⟩
    · omega
    · rwa [capacity_of_isDetached detached] at fits
  · rw [room_withRoom capacity (isDetached_edit ..)]
    exact Storage.needed_le_grown ..

private theorem le_room_withCapacity (held : List StorageId) (capacity : Nat) :
    capacity ≤ (withCapacity held capacity).storage.room := by
  rw [withCapacity]
  split
  · omega
  · exact Nat.le_max_left ..

/-- Bytes put behind the others, whether there are any or not. -/
private theorem roomAfter_extended (bytes : List UInt8) :
    RoomAfter held h 0 (True ∧ h.isDetached held = false) (h.edit held (h.length + bytes.length) (· ++ bytes)) := by
  refine roomAfter_edit (and_iff_right trivial) ?_
  rw [List.length_append, length_content]
  omega

private theorem roomAfter_append (bytes : List UInt8) :
    RoomAfter held h 0 (bytes ≠ [] ∧ h.isDetached held = false) (h.append held bytes) := by
  by_cases none : bytes = []
  · subst none
    exact .of_storage (fun moves => moves.1 rfl) rfl
  · rw [append, if_neg (by simpa using none)]
    refine roomAfter_edit (by simp [none]) ?_
    simp only [List.length_append, length_content]
    omega

/-- Bytes are put in behind a step that may have moved the handle. The spaces before them are a write of their own, behind
which the handle is detached. -/
private theorem RoomAfter.insert {before : Prop} (first : RoomAfter held h 0 before g) (some : bytes ≠ [])
    (fits : max place g.length + bytes.length ≤ Word.maxValue) (when : moves ↔ before ∨ g.isDetached held = false) :
    RoomAfter held h 0 moves (g.insert held place bytes) := by
  rw [Handle.insert, if_neg (by simpa using some), Word.add?, if_pos fits]
  dsimp only
  by_cases past : g.length < place
  · have padded : RoomAfter held h (max place g.length + bytes.length) moves
        (g.padTo held (max place g.length + bytes.length) place) := by
      rw [padTo, if_pos past]
      refine first.edit when ?_ ?_
      all_goals
        simp only [List.length_append, List.length_replicate, length_content]
        omega
    have detached : (g.padTo held (max place g.length + bytes.length) place).isDetached held = true := by
      rw [padTo, if_pos past]
      exact isDetached_edit ..
    have length : (g.padTo held (max place g.length + bytes.length) place).length = place := by
      rw [padTo, if_pos past, length_edit, List.length_append, List.length_replicate, length_content]
      omega
    refine padded.edit (by simp [detached]) ?_ ?_
    all_goals
      rw [length_inserted, length_content, length]
      omega
  · rw [padTo, if_neg past]
    refine first.edit when ?_ ?_
    all_goals
      rw [length_inserted, length_content]
      omega

private theorem roomAfter_insert (place : Nat) (bytes : List UInt8) :
    RoomAfter held h 0 ((bytes ≠ [] ∧ max place h.length + bytes.length ≤ Word.maxValue) ∧ h.isDetached held = false)
      (h.insert held place bytes) := by
  by_cases some : bytes ≠ [] ∧ max place h.length + bytes.length ≤ Word.maxValue
  · exact RoomAfter.refl.insert some.1 some.2 (by simp [some])
  · rw [not_and_or, not_not, Nat.not_le] at some
    exact .of_storage (fun moves => some.elim moves.1.1 (Nat.not_lt.mpr moves.1.2)) (congrArg storage (insert_eq_self some))

/-! Taking out -/

/-- Bytes taken out from the middle are taken out of a copy. -/
private theorem remove_inside (held : List StorageId) (h : Handle) (before : 0 < place) (some : 0 < n)
    (behind : place + n < h.length) :
    h.remove held place n = h.edit held h.length (removed place n) := by
  have count : min n (h.length - place) = n := by omega
  unfold remove
  rw [if_neg (by omega)]
  dsimp only
  rw [if_neg (by omega), if_neg (by omega), count]

private theorem isDetached_remove_front (some : 0 < n) (short : n < h.length) :
    (h.remove held 0 n).isDetached held = false := by
  unfold remove
  rw [if_neg (by omega)]
  dsimp only
  rw [if_neg (by omega), if_pos rfl]
  have start : h.start + min n (h.length - 0) ≠ 0 := by omega
  refine Bool.eq_false_iff.mpr fun detached => ?_
  obtain ⟨_, _, _, -, first, -⟩ := isDetached_iff.mp detached
  exact start first

/-- Bytes taken out from the end, or none, leave a handle detached that was. -/
private theorem isDetached_remove_back (reserved : h.reserved = true)
    (inside : ¬ (0 < place ∧ 0 < n ∧ place + n < h.length))
    (front : ¬ (place = 0 ∧ 0 < n ∧ n < h.length)) : (h.remove held place n).isDetached held = h.isDetached held := by
  unfold remove
  split
  · rfl
  · dsimp only
    rw [if_pos (by omega)]
    exact (isDetached_resizeWith 0 reserved).trans (by rw [decide_eq_false (by omega), Bool.false_or])

private theorem roomAfter_remove (place n : Nat) (reserved : h.reserved = true) :
    RoomAfter held h 0 ((0 < place ∧ 0 < n ∧ place + n < h.length) ∧ h.isDetached held = false) (h.remove held place n) := by
  by_cases inside : 0 < place ∧ 0 < n ∧ place + n < h.length
  · rw [remove_inside held h inside.1 inside.2.1 inside.2.2]
    exact roomAfter_edit (by simp [inside]) (Nat.le_max_left ..)
  · exact .of_storage (fun moves => inside moves.1) (storage_remove inside (.inr (.inr (.inr reserved))))

/-- Taking out and putting in moves a handle that is not detached once it writes, and any that has its first bytes taken
out before it is written to. -/
private theorem roomAfter_insert_remove (place n : Nat) (after : List UInt8) (reserved : h.reserved = true) :
    RoomAfter held h 0
      (((0 < place ∧ 0 < n ∧ place + n < h.length) ∧ h.isDetached held = false) ∨
        (after ≠ [] ∧ max place (removed place n h.content).length + after.length ≤ Word.maxValue) ∧
          (h.isDetached held = false ∨ place = 0 ∧ 0 < n ∧ n < h.length))
      ((h.remove held place n).insert held place after) := by
  have first := @roomAfter_remove held h place n reserved
  have length := length_remove held place n h
  by_cases some : after ≠ [] ∧ max place (removed place n h.content).length + after.length ≤ Word.maxValue
  · refine first.insert some.1 (length ▸ some.2) ?_
    -- Out of the middle the bytes go by way of a copy, which is detached; off the front they leave a handle that is not.
    rw [and_iff_right some]
    by_cases inside : 0 < place ∧ 0 < n ∧ place + n < h.length
    · have detached := isDetached_edit held h.length (removed place n) h
      rw [← remove_inside held h inside.1 inside.2.1 inside.2.2] at detached
      have behind : ¬ (place = 0 ∧ 0 < n ∧ n < h.length) := by omega
      simp only [and_iff_right inside, behind, detached, or_false, or_self, Bool.true_eq_false]
    · by_cases front : place = 0 ∧ 0 < n ∧ n < h.length
      · obtain ⟨rfl, taken, part⟩ := front
        exact iff_of_true (.inr (.inr ⟨rfl, taken, part⟩)) (.inr (isDetached_remove_front taken part))
      · simp only [inside, front, false_and, false_or, or_false, isDetached_remove_back reserved inside front]
  · have nothing := not_and_or.mp some
    rw [not_not, Nat.not_le, ← length] at nothing
    rw [insert_eq_self nothing]
    simpa only [some, false_and, or_false] using first

/-! Replacing -/

/-- The wrapped end of the range seems to lie inside, so that the write over it breaks off. -/
def BreaksOff (place n : Nat) (after : List UInt8) (h : Handle) : Prop :=
  0 < n ∧ n = after.length ∧ Word.addWrapped place n ≤ h.length ∧ h.length < place + n

private theorem roomAfter_replace (place n : Nat) (after : List UInt8) (reserved : h.reserved = true) :
    RoomAfter held h 0
      ((((0 < place ∧ 0 < n ∧ place + n < h.length) ∨
            after ≠ [] ∧ ((n = after.length ∧ place + n ≤ h.length) ∨
              max place (removed place n h.content).length + after.length ≤ Word.maxValue)) ∧
          (h.isDetached held = false ∨ place = 0 ∧ 0 < n ∧ n < h.length ∧ n ≠ after.length)) ∨
        BreaksOff place n after h ∧ h.isDetached held = false)
      (Broken.after (h.replace held place n after)) := by
  rw [replace]
  split
  · next overlay =>
    obtain ⟨same, wrapped⟩ := overlay
    split
    · next none =>
      have nothing : after = [] := List.length_eq_zero_iff.mp (same.symm.trans none)
      refine .of_storage ?_ rfl
      rintro (⟨⟨-, some, -⟩ | ⟨some, -⟩, -⟩ | ⟨⟨some, -⟩, -⟩)
      · omega
      · exact some nothing
      · omega
    · next some =>
      have something : after ≠ [] := by rintro rfl; exact some same
      split
      · next inside =>
        have whole : ¬ BreaksOff place n after h := fun breaks => Nat.not_lt.mpr inside breaks.2.2.2
        refine roomAfter_edit ?_ (Nat.le_max_left ..)
        rw [or_iff_left (not_and_of_not_left _ whole)]
        simp only [something, same ▸ inside, same, ne_eq, not_true, not_false_eq_true, and_false, or_false, true_or, or_true,
          and_self, true_and]
      · next outside =>
        have breaks : BreaksOff place n after h := ⟨Nat.pos_of_ne_zero some, same, wrapped, Nat.lt_of_not_le outside⟩
        refine roomAfter_edit ⟨?_, fun apart => .inr ⟨breaks, apart⟩⟩ (Nat.le_max_left ..)
        rintro (⟨-, apart | ⟨-, -, -, differs⟩⟩ | ⟨-, apart⟩)
        · exact apart
        · exact absurd same differs
        · exact apart
  · next beside =>
    have apart : ¬ (n = after.length ∧ place + n ≤ h.length) := fun overlay =>
      beside ⟨overlay.1, Nat.le_trans (Nat.mod_le _ _) overlay.2⟩
    have whole : ¬ BreaksOff place n after h := fun breaks => beside ⟨breaks.2.1, breaks.2.2.1⟩
    have other : place = 0 ∧ 0 < n ∧ n < h.length → n ≠ after.length := fun front same => apart ⟨same, by omega⟩
    have behind : 0 < place ∧ 0 < n ∧ place + n < h.length → ¬ (place = 0 ∧ 0 < n ∧ n < h.length) := by omega
    refine (roomAfter_insert_remove place n after reserved).congr ?_
    rw [or_iff_right apart, or_iff_left (not_and_of_not_left _ whole)]
    constructor
    · rintro ⟨inside | writes, shared | ⟨first, some, part, -⟩⟩
      · exact .inl ⟨inside, shared⟩
      · exact absurd ⟨first, some, part⟩ (behind inside)
      · exact .inr ⟨writes, .inl shared⟩
      · exact .inr ⟨writes, .inr ⟨first, some, part⟩⟩
    · rintro (⟨inside, shared⟩ | ⟨writes, shared | front⟩)
      · exact ⟨.inl inside, .inl shared⟩
      · exact ⟨.inr writes, .inl shared⟩
      · exact ⟨.inr writes, .inr ⟨front.1, front.2.1, front.2.2, other front⟩⟩

/-- What is put together beside the old bytes has the room of those. -/
private theorem roomAfter_replaceAll (after : List UInt8) (still : (h.replaceAll held bytes after).reserved = true) :
    RoomAfter held h 0 (bytes ≠ [] ∧ bytes <:+: h.content) (h.replaceAll held bytes after) := by
  have idle : Search.replaceAll? h.content bytes after = none ↔ ¬ (bytes ≠ [] ∧ bytes <:+: h.content) :=
    Search.replaceAll?_eq_none_iff after
  unfold replaceAll at still ⊢
  cases found : Search.replaceAll? h.content bytes after with
  | none => exact .of_storage (idle.mp found) rfl
  | some pieces =>
    simp only [found] at still ⊢
    split at still
    · cases still
    · next some =>
      rw [if_neg some]
      refine ⟨fun stays => ?_, fun _ => ⟨?_, ?_⟩⟩
      · rw [idle.mpr stays] at found
        cases found
      · exact isDetached_iff.mpr ⟨_, _, _, rfl, rfl, fun member => fresh_notMem _ (mem_id_append held h member)⟩
      · have grown := Storage.grownAlong_le h.length 0 pieces
        show max (Storage.grownAlong h.length 0 pieces) pieces.flatten.length ≤
          max (2 * max h.length pieces.flatten.length) (max 8 0)
        omega

private theorem roomAfter_replaceByte (b c : UInt8) :
    RoomAfter held h 0 ((b ≠ c ∧ b ∈ h.content) ∧ h.isDetached held = false) (h.replaceByte held b c) := by
  by_cases some : b ≠ c ∧ b ∈ h.content
  · rw [replaceByte, if_pos (by simpa using some)]
    exact roomAfter_edit (by simp [some]) (Nat.le_max_left ..)
  · rw [replaceByte, if_neg (by simpa using some)]
    exact .of_storage (fun moves => some moves.1) rfl

private theorem roomAfter_fill (b : UInt8) (length? : Option Nat) (reserved : h.reserved = true) :
    RoomAfter held h 0 (0 < length?.getD h.length ∧ h.isDetached held = false) (h.fill held b length?) := by
  have sized : ∀ (s : Handle) (before : Prop), RoomAfter held h 0 before s → (s.length = 0 → ¬ before) →
      RoomAfter held h 0 (0 < s.length ∧ (before ∨ s.isDetached held = false))
        (if s.isEmpty then s else s.edit held s.length fun bytes => List.replicate bytes.length b) := by
    intro s before first blank
    by_cases none : s.length = 0
    · rw [if_pos (by simpa [isEmpty] using none)]
      exact first.congr (iff_of_false (by omega) (blank none))
    · rw [if_neg (by simpa [isEmpty] using none)]
      refine first.edit (and_iff_right (Nat.pos_of_ne_zero none)) ?_ ?_
      all_goals
        simp only [List.length_replicate, length_content]
        omega
  unfold fill
  cases length? with
  | none => exact (sized h False .refl fun _ => id).congr (by simp)
  | some n =>
    refine (sized _ _ (roomAfter_resizeWith 0 reserved) fun none grows => ?_).congr ?_
    · have : n = 0 := (length_resize held n h).symm.trans none
      omega
    · have length : (h.resizeWith held n 0).length = n := length_resize held n h
      rw [isDetached_resizeWith 0 reserved, length]
      by_cases grows : h.length < n
      · simp [grows]
      · simp [grows]

private theorem roomAfter_set (index : Nat) (b : UInt8) (reserved : h.reserved = true) :
    RoomAfter held h 0 (index < Word.maxValue ∧ h.isDetached held = false) (h.set held index b) := by
  unfold set
  split
  · next far => exact .of_storage (fun moves => by omega) rfl
  · next near =>
    have inside : index < Word.maxValue := Nat.lt_of_not_le near
    dsimp only
    split
    · next beyond =>
      have length : (h.resizeWith held (index + 1) 0).length = index + 1 := length_resize held (index + 1) h
      have grows : h.length < index + 1 := by omega
      refine (roomAfter_resizeWith 0 reserved).edit ?_ ?_ ?_
      · simp [inside, grows, isDetached_resizeWith 0 reserved]
      all_goals
        simp only [List.length_set, length_content, resize, length]
        omega
    · refine roomAfter_edit (by simp [inside]) ?_
      simp only [List.length_set, length_content]
      omega

/-! Text -/

private theorem roomAfter_copyUnless {same : Bool} (plain : moves → same = false)
    (still : (h.copyUnless held same bytes).reserved = true) :
    RoomAfter held h 0 moves (h.copyUnless held same bytes) := by
  unfold copyUnless at still ⊢
  split at still
  · next same =>
    rw [if_pos same]
    exact .of_storage (fun moves => Bool.noConfusion (same.symm.trans (plain moves))) rfl
  · unfold ofList at still
    split at still
    all_goals cases still

private theorem roomAfter_into {same : Bool} {f : List UInt8 → List UInt8}
    (still : (if h.isDetached held then h.edit held h.length f else h.copyUnless held same bytes).reserved = true) :
    RoomAfter held h 0 (same = false ∧ h.isDetached held = false)
      (if h.isDetached held then h.edit held h.length f else h.copyUnless held same bytes) := by
  split
  · next detached => exact roomAfter_edit (by simp [detached]) (Nat.le_max_left ..)
  · next apart =>
    rw [if_neg apart] at still
    exact roomAfter_copyUnless And.left still

private theorem roomAfter_intoTrimmed (still : (h.intoTrimmed held).reserved = true) :
    RoomAfter held h 0 False (h.intoTrimmed held) := by
  unfold intoTrimmed at still ⊢
  split
  · next detached => exact roomAfter_edit (by simp [detached]) (Nat.le_max_left ..)
  · next apart =>
    rw [if_neg apart, trimmed] at still
    unfold mid view at still
    repeat' split at still
    all_goals cases still

private theorem roomAfter_intoSimplified (still : (h.intoSimplified held).reserved = true) :
    RoomAfter held h 0 (Text.Spacing.isSimplified h.content = false ∧ h.isDetached held = false) (h.intoSimplified held) := by
  by_cases idle : Text.Spacing.isSimplified h.content = true
  · rw [intoSimplified_eq_self idle]
    exact .of_storage (fun moves => Bool.noConfusion (idle.symm.trans moves.1)) rfl
  · unfold intoSimplified at still ⊢
    split
    · next apart =>
      rw [if_pos apart, simplified, if_neg idle] at still
      dsimp only at still
      split at still
      all_goals cases still
    · next detached =>
      refine roomAfter_edit ?_ (Nat.le_max_left ..)
      exact iff_of_false (fun moves => by simp [moves.2] at detached) (by simpa using detached)

/-! Changes -/

/-- A change that moves the handle to a new storage: a write that does not find it detached, be it one that breaks off, or
one that puts the text together beside the old one or takes out the first bytes on its way. -/
def Change.Moves (held : List StorageId) (h : Handle) : Change → Prop
  | replaceAll before after => (replaceAll before after).Writes h
  | replace place n after =>
    ((replace place n after).Writes h ∧
        (h.isDetached held = false ∨ place = 0 ∧ 0 < n ∧ n < h.length ∧ n ≠ after.length)) ∨
      BreaksOff place n after h ∧ h.isDetached held = false
  | change => change.Writes h ∧ h.isDetached held = false

/-- The room that a change asks for. -/
def Change.request : Change → Nat
  | reserve capacity => capacity
  | _ => 0

/-- No change of a reserved handle takes room from it but by moving it. -/
private theorem Change.roomAfter (change : Change) (reserved : h.reserved = true)
    (still : (Broken.after (change.apply held h)).reserved = true) :
    RoomAfter held h change.request (change.Moves held h) (Broken.after (change.apply held h)) := by
  cases change with
  | replace place n after => exact roomAfter_replace place n after reserved
  | resize n b => exact roomAfter_resizeWith b reserved
  | reserve capacity => exact roomAfter_reserve capacity
  | squeeze =>
    refine .of_storage And.left (congrArg storage ?_)
    exact (Handle.squeeze.eq_def held h).trans (if_pos reserved)
  | truncate n => exact .of_storage And.left (storage_truncate (.inr (.inr reserved)))
  | chop n => exact .of_storage And.left (storage_truncate (.inr (.inr reserved)))
  | clear => cases still
  | append bytes => exact roomAfter_append bytes
  | prepend bytes =>
    have inserted := @roomAfter_insert held h 0 bytes
    rwa [Nat.zero_max] at inserted
  | insert place bytes => exact roomAfter_insert place bytes
  | remove place n => exact roomAfter_remove place n reserved
  | replaceAll before after => exact roomAfter_replaceAll after still
  | replaceByte before after => exact roomAfter_replaceByte before after
  | fill b length? => exact roomAfter_fill b length? reserved
  | set index b => exact roomAfter_set index b reserved
  | lower | upper => exact roomAfter_into still
  | trim => exact (roomAfter_intoTrimmed still).congr (iff_of_false And.left id)
  | simplify => exact roomAfter_intoSimplified still
  | push b => exact roomAfter_extended [b]
  | extend bytes => exact roomAfter_extended bytes
  | detach | store place bytes | reverse => exact roomAfter_edit (and_iff_right trivial) (Nat.le_max_left ..)

/-! Actions -/

namespace Table

variable {t : Table} {name : String} {action : Action}

/-- The action is about others, or about the handle under a name without putting another in its place. -/
inductive Action.Leaves (name : String) : Action → Prop where
  | others {action : Action} (spared : ¬ action.Names name) : Leaves name action
  | change (change : Change) : Leaves name (.change name change)
  | appendShared (source : String) : Leaves name (.appendShared name source)
  | splitOff {part : String} (differs : part ≠ name) (place : Nat) : Leaves name (.splitOff part name place)
  | splitTo {part : String} (differs : part ≠ name) (place : Nat) : Leaves name (.splitTo part name place)

/-- The action moves the handle under a name to a new storage. -/
inductive Moves (t : Table) (name : String) : Action → Prop where
  | change {h : Handle} {change : Change} (found : t.find? name = some h) (moves : change.Moves (t.heldByOthers name) h) :
      Moves t name (.change name change)
  | appendShared {h g : Handle} {source : String} (found : t.find? name = some h) (given : t.find? source = some g)
      (some : 0 < g.length) (apart : h.isDetached (g.id?.toList ++ t.heldByOthers name) = false) :
      Moves t name (.appendShared name source)

private theorem moves_change_iff {change : Change} (found : t.find? name = some h) :
    t.Moves name (.change name change) ↔ change.Moves (t.heldByOthers name) h := by
  refine ⟨fun moves => ?_, fun moves => .change found moves⟩
  cases moves with
  | change found' moves =>
    cases found.symm.trans found'
    exact moves

private theorem moves_appendShared_iff {source : String} (found : t.find? name = some h)
    (given : t.find? source = some g) :
    t.Moves name (.appendShared name source) ↔
      g.content ≠ [] ∧ h.isDetached (g.id?.toList ++ t.heldByOthers name) = false := by
  rw [ne_eq, content_eq_nil_iff, ← ne_eq, ← Nat.pos_iff_ne_zero]
  refine ⟨fun moves => ?_, fun ⟨shown, apart⟩ => .appendShared found given shown apart⟩
  cases moves with
  | appendShared found' given' some apart =>
    cases found.symm.trans found'
    cases given.symm.trans given'
    exact ⟨some, apart⟩

/-- The room that an action asks for. -/
def Action.request : Action → Nat
  | .change _ asking => asking.request
  | _ => 0

private theorem step_roomAfter (found : t.find? name = some h) (reserved : h.reserved = true)
    (leaves : action.Leaves name)
    (found' : (Broken.after (t.step action)).find? name = some r) (still : r.reserved = true) :
    RoomAfter ((Broken.after (t.step action)).heldByOthers name) h action.request (t.Moves name action) r := by
  have stays (idle : ¬ t.Moves name action) (same : r.storage = h.storage) :
      RoomAfter ((Broken.after (t.step action)).heldByOthers name) h action.request (t.Moves name action) r :=
    .of_storage idle same
  cases leaves with
  | others spared =>
    rw [step, find?_stepBeside spared, found] at found'
    cases found'
    refine stays (fun moves => ?_) rfl
    cases moves with
    | change | appendShared => exact spared rfl
  | change change =>
    have stepped : Broken.after (t.step (.change name change)) =
        t.put name (Broken.after (change.apply (t.heldByOthers name) h)) := by
      simp only [step, stepBeside, found, List.nil_append, after_putBroken]
    rw [stepped, find?_put_self] at found'
    cases found'
    rw [stepped, heldByOthers_put]
    exact (change.roomAfter reserved still).congr (moves_change_iff found)
  | appendShared source =>
    cases given : t.find? source with
    | none =>
      have stepped : t.step (.appendShared name source) = .ok t := by simp only [step, stepBeside, found, given]
      rw [stepped] at found'
      cases found.symm.trans found'
      refine stays (fun moves => ?_) rfl
      cases moves with
      | appendShared _ given' => cases given.symm.trans given'
    | some g =>
      rw [step_appendShared found given, Broken.after, find?_put_self, appendShared_of_kept (.inr reserved)] at found'
      cases found'
      rw [step_appendShared found given, Broken.after, heldByOthers_put]
      exact ((roomAfter_append g.content).mono fun id => mem_id_append _ g).congr (moves_appendShared_iff found given)
  | splitOff differs place =>
    refine stays (fun moves => by cases moves) ?_
    rw [step, stepBeside, found] at found'
    dsimp only [Handle.splitOff] at found'
    split at found'
    · next parted =>
      rw [Broken.after, find?_put_of_ne _ _ differs.symm, find?_put_self] at found'
      cases found'
      split at parted
      · cases parted
        rfl
      · cases parted
    · cases found.symm.trans found'
      rfl
  | splitTo differs place =>
    refine stays (fun moves => by cases moves) ?_
    rw [step, stepBeside, found] at found'
    dsimp only [Handle.splitTo] at found'
    split at found'
    · next parted =>
      rw [Broken.after, find?_put_of_ne _ _ differs.symm, find?_put_self] at found'
      cases found'
      split at parted
      · cases parted
        rfl
      · cases parted
    · cases found.symm.trans found'
      rfl

private theorem Moves.leaves (moves : t.Moves name action) : action.Leaves name := by
  cases moves with
  | change => exact .change _
  | appendShared => exact .appendShared _

end Table

/-! Runs -/

namespace World

variable {w : World} {name : String} {action : Table.Action} {actions : List Table.Action}

private theorem roomAfter_step (found : w.table.find? name = some h) (reserved : h.reserved = true)
    (leaves : action.Leaves name)
    (found' : (w.step action).table.find? name = some r) (still : r.reserved = true) :
    RoomAfter ((w.step action).table.heldByOthers name) h action.request (w.table.Moves name action) r :=
  Table.step_roomAfter found reserved leaves found' still

/-- There is a handle under the name, and it is reserved. -/
def Reserved (w : World) (name : String) : Prop := ∃ h, w.table.find? name = some h ∧ h.reserved = true

/-- A run in which the handle under a name stays reserved and is not moved. -/
def Rests (w : World) (name : String) : List Table.Action → Prop
  | [] => w.Reserved name
  | action :: actions =>
    w.Reserved name ∧ action.Leaves name ∧ ¬ w.table.Moves name action ∧ (w.step action).Rests name actions

private theorem Rests.reserved (rests : w.Rests name actions) : w.Reserved name := by
  cases actions with
  | nil => exact rests
  | cons => exact rests.1

/-- No room is lost in a run that does not move the handle. -/
private theorem room_run (rests : w.Rests name actions) (found : w.table.find? name = some h)
    (found' : (w.run actions).table.find? name = some r) : h.storage.room ≤ r.storage.room := by
  -- The handle is another one in every state, but each has the room of the one before.
  induction actions generalizing w h with
  | nil =>
    cases found.symm.trans found'
    exact Nat.le_refl _
  | cons action actions ih =>
    obtain ⟨⟨_, here, reserved⟩, leaves, stays, later⟩ := rests
    cases found.symm.trans here
    obtain ⟨g, next, still⟩ := later.reserved
    exact Nat.le_trans ((roomAfter_step found reserved leaves next still).kept stays) (ih later next found')

/-- A handle has the room that it is made with, and the room that is reserved. -/
private theorem le_room_opening {opening : Table.Action}
    (opens : opening = .make name (.room n) ∨ opening = .change name (.reserve n))
    (found : (w.step opening).table.find? name = some g) : n ≤ g.storage.room := by
  have after : (w.step opening).table = Broken.after (w.table.step opening) := rfl
  rw [after] at found
  rcases opens with rfl | rfl
  · have made : Broken.after (w.table.step (.make name (.room n))) = w.table.put name (withCapacity w.table.held n) := rfl
    rw [made, Table.find?_put_self] at found
    cases found
    exact le_room_withCapacity ..
  · cases before : w.table.find? name with
    | none =>
      have same : w.table.step (.change name (.reserve n)) = .ok w.table := by
        simp only [Table.step, Table.stepBeside, before]
      rw [same, Broken.after, before] at found
      cases found
    | some h =>
      have changed : Change.apply (w.table.heldByOthers name) h (.reserve n) =
          .ok (h.reserve (w.table.heldByOthers name) n) := rfl
      rw [Table.step_change before changed, Broken.after, Table.find?_put_self] at found
      cases found
      exact le_room_reserve n

/-- Reserved room is there whenever the handle is detached, until an action moves the handle: behind that one there is no
more than twice what the handle shows or showed, than eight bytes, or than the action asks for, however much was reserved
before. -/
theorem reserved_room_until_moved (w : World) (name : String) (n : Nat) :
    (∀ opening actions h, opening = .make name (.room n) ∨ opening = .change name (.reserve n) →
        (w.step opening).Rests name actions → ((w.step opening).run actions).table.find? name = some h →
        h.isDetached (((w.step opening).run actions).table.heldByOthers name) = true →
        n ≤ h.capacity (((w.step opening).run actions).table.heldByOthers name)) ∧
      ∀ action h r, w.table.find? name = some h → h.reserved = true → w.table.Moves name action →
        (w.step action).table.find? name = some r → r.reserved = true →
        r.isDetached ((w.step action).table.heldByOthers name) = true ∧
          r.capacity ((w.step action).table.heldByOthers name) ≤
            max (2 * max h.length r.length) (max 8 action.request) := by
  refine ⟨fun opening actions r opens rests found' detached => ?_, fun action h r found reserved moves found' still => ?_⟩
  · obtain ⟨g, found, -⟩ := rests.reserved
    rw [capacity_of_isDetached detached]
    exact Nat.le_trans (le_room_opening opens found) (room_run rests found found')
  · have moved := (roomAfter_step found reserved moves.leaves found' still).moved moves
    exact ⟨moved.1, (capacity_of_isDetached moved.1).symm ▸ moved.2⟩

/-- Room for a hundred bytes is there behind a write, a view that comes and goes, a cut and an attempt to give it up. A
write beside a clone leaves room for what is written. -/
theorem reserved_room_until_moved_cloned :
    (∃ h, ((start.step (.make "text" (.room 100))).run [.change "text" (.append [97, 98]), .derive "view" "text" (.left 1),
          .change "text" (.truncate 1), .drop "view", .change "text" .squeeze]).table.find? "text" = some h ∧
        100 ≤ h.capacity []) ∧
      ∃ h, ((start.run [.make "text" (.room 100), .derive "copy" "text" .clone]).step
          (.change "text" (.push 120))).table.find? "text" = some h ∧ h.capacity [1] ≤ 8 := by
  have apart : "text" ≠ "view" := by decide
  constructor
  · have rests : (start.step (.make "text" (.room 100))).Rests "text" [.change "text" (.append [97, 98]),
        .derive "view" "text" (.left 1), .change "text" (.truncate 1), .drop "view", .change "text" .squeeze] := by
      refine ⟨⟨_, rfl, rfl⟩, .change _, ?_, ⟨_, rfl, rfl⟩, .others apart, nofun, ⟨_, rfl, rfl⟩, .change _, ?_,
        ⟨_, rfl, rfl⟩, .others apart, nofun, ⟨_, rfl, rfl⟩, .change _, ?_, ⟨_, rfl, rfl⟩⟩
      · exact fun moves => absurd ((Table.moves_change_iff rfl).mp moves).2 (by decide +kernel)
      · exact fun moves => ((Table.moves_change_iff rfl).mp moves).1
      · exact fun moves => ((Table.moves_change_iff rfl).mp moves).1
    exact ⟨_, rfl, (reserved_room_until_moved start "text" 100).1 _ _ _ (.inl rfl) rests rfl (by decide +kernel)⟩
  · have moves : (start.run [.make "text" (.room 100), .derive "copy" "text" .clone]).table.Moves "text"
        (.change "text" (.push 120)) := (Table.moves_change_iff rfl).mpr ⟨trivial, by decide +kernel⟩
    have moved := (reserved_room_until_moved (start.run [.make "text" (.room 100), .derive "copy" "text" .clone]) "text" 100).2
      _ _ _ rfl rfl moves rfl rfl
    exact ⟨_, rfl, moved.2⟩

/-- A clone, and the hundred bytes of room are gone with the next write. -/
theorem reserved_room_lost :
    let w := start.run [.make "text" (.room 100), .derive "copy" "text" .clone, .change "text" (.push 120)]
    ∃ h, w.table.find? "text" = some h ∧ h.reserved = true ∧ h.isDetached (w.table.heldByOthers "text") = true ∧
      h.capacity (w.table.heldByOthers "text") = 1 :=
  ⟨_, rfl, rfl, rfl, rfl⟩

end World

end Handle

end ByteFlow
