import ByteFlow.Handle.Text
import Mathlib.Data.List.Basic

/-! What each operation on a handle does to the bytes that the handle shows.
Nothing here depends on which storages others hold: that decides where bytes are kept, not which. -/
namespace ByteFlow.Handle

/-! Making handles -/

@[simp] theorem content_whole (storage : Storage) (reserved : Bool) :
    (whole storage reserved).content = storage.bytes := by
  simp [content, whole]

@[simp] theorem content_empty : empty.content = [] := rfl

@[simp] theorem content_allocate (held : List StorageId) (capacity : Nat) (bytes : List UInt8) :
    (allocate held capacity bytes).content = bytes := by
  simp [allocate, Storage.bytes]

@[simp] theorem content_ofList (held : List StorageId) (bytes : List UInt8) :
    (ofList held bytes).content = bytes := by
  rw [ofList]
  split
  · next none => exact (List.isEmpty_iff.mp none).symm
  · exact content_allocate held 0 bytes

theorem content_eq_nil_iff (h : Handle) : h.content = [] ↔ h.length = 0 := by
  rw [← h.length_content, List.length_eq_zero_iff]

/-- The flags of a handle say nothing about its bytes. -/
theorem content_reserved (h : Handle) (flag : Bool) :
    ({ h with reserved := flag } : Handle).content = h.content := rfl

/-! Views -/

theorem content_view (h : Handle) (offset length : Nat) (fits : offset + length ≤ h.length) :
    (h.view offset length fits).content = (h.content.drop offset).take length := by
  rw [view]
  split
  · next none => simp [none]
  · simp only [content, List.drop_take, List.drop_drop, List.take_take]
    rw [Nat.min_eq_left (by omega)]

@[simp] theorem content_left (h : Handle) (n : Nat) : (h.left n).content = h.content.take n := by
  rw [left, content_view, List.drop_zero]
  rw [← h.length_content, ← List.take_eq_take_min]

@[simp] theorem content_right (h : Handle) (n : Nat) :
    (h.right n).content = h.content.drop (h.length - n) := by
  rw [right, content_view, show h.length - min n h.length = h.length - n by omega]
  exact List.take_of_length_le (by simp; omega)

@[simp] theorem content_mid (h : Handle) (place : Nat) (n? : Option Nat) :
    (h.mid place n?).content = (h.content.drop place).take (n?.getD h.length) := by
  rw [mid]
  split
  · rw [content_view, List.take_eq_take_iff, List.length_drop, length_content]
    omega
  · next outside => rw [List.drop_eq_nil_of_le (by simp; omega)]; simp

@[simp] theorem content_keepFirst (h : Handle) (n : Nat) (fits : n ≤ h.length) :
    (h.keepFirst n fits).content = h.content.take n := by
  simp [content, keepFirst, List.take_take, Nat.min_eq_left fits]

@[simp] theorem content_dropFirst (h : Handle) (n : Nat) (fits : n ≤ h.length) :
    (h.dropFirst n fits).content = h.content.drop n := by
  simp [content, dropFirst, List.drop_take, List.drop_drop]

/-! Changes -/

@[simp] theorem content_edit (held : List StorageId) (room : Nat) (f : List UInt8 → List UInt8)
    (h : Handle) : (h.edit held room f).content = f h.content := content_whole ..

@[simp] theorem content_detach (held : List StorageId) (h : Handle) :
    (h.detach held).content = h.content := content_edit ..

/-- Growing shows copies of the byte asked for, never what the storage held behind the view. -/
theorem content_resizeWith (held : List StorageId) (n : Nat) (b : UInt8) (h : Handle) :
    (h.resizeWith held n b).content = h.content.take n ++ List.replicate (n - h.length) b := by
  rw [resizeWith]
  split
  · next smaller =>
    rw [Nat.sub_eq_zero_of_le (Nat.le_of_lt smaller), List.replicate_zero, List.append_nil]
    split
    · next gone => simp [gone.1]
    · exact content_keepFirst ..
  · next larger =>
    split
    · next same => subst same; simp [List.take_of_length_le]
    · rw [content_edit, length_content, List.take_of_length_le (by simp; omega)]

theorem content_resize (held : List StorageId) (n : Nat) (h : Handle) :
    (h.resize held n).content = h.content.take n ++ List.replicate (n - h.length) 0 :=
  content_resizeWith held n 0 h

@[simp] theorem length_resize (held : List StorageId) (n : Nat) (h : Handle) :
    (h.resize held n).length = n := by
  rw [← length_content, content_resize]
  simp
  omega

@[simp] theorem content_withRoom (capacity : Nat) (h : Handle) :
    (h.withRoom capacity).content = h.content := by
  rw [withRoom]
  split
  · next same => simp [content, same, Storage.bytes]
  · rfl

@[simp] theorem content_reserve (held : List StorageId) (capacity : Nat) (h : Handle) :
    (h.reserve held capacity).content = h.content := by
  unfold reserve
  dsimp only
  split
  · rfl
  · rw [content_withRoom, content_edit]
    rfl

@[simp] theorem content_squeeze (held : List StorageId) (h : Handle) :
    (h.squeeze held).content = h.content := by
  rw [squeeze]
  split
  · rfl
  · split
    · next none => rw [content_empty, (content_eq_nil_iff h).mpr none]
    · split
      · split
        · exact content_whole ..
        · rfl
      · rfl

@[simp] theorem content_truncate (held : List StorageId) (n : Nat) (h : Handle) :
    (h.truncate held n).content = h.content.take n := by
  rw [truncate]
  split
  · next smaller => simp [content_resize, Nat.sub_eq_zero_of_le (Nat.le_of_lt smaller)]
  · exact (List.take_of_length_le (by simp; omega)).symm

@[simp] theorem content_chop (held : List StorageId) (n : Nat) (h : Handle) :
    (h.chop held n).content = h.content.take (h.length - n) := content_truncate ..

@[simp] theorem content_append (held : List StorageId) (bytes : List UInt8) (h : Handle) :
    (h.append held bytes).content = h.content ++ bytes := by
  rw [append]
  split
  · next none => rw [List.isEmpty_iff.mp none, List.append_nil]
  · exact content_edit ..

@[simp] theorem content_appendShared (held : List StorageId) (h other : Handle) :
    (h.appendShared held other).content = h.content ++ other.content := by
  rw [appendShared]
  split
  · next none =>
    have : h.content = [] := (content_eq_nil_iff h).mpr (by simpa [isEmpty] using none.1)
    rw [this, List.nil_append]
  · exact content_append ..

@[simp] theorem content_push (held : List StorageId) (b : UInt8) (h : Handle) :
    (h.push held b).content = h.content ++ [b] := content_edit ..

@[simp] theorem content_extend (held : List StorageId) (bytes : List UInt8) (h : Handle) :
    (h.extend held bytes).content = h.content ++ bytes := content_edit ..

@[simp] theorem content_store (held : List StorageId) (place : Nat) (bytes : List UInt8)
    (h : Handle) : (h.store held place bytes).content = overlaid place bytes h.content :=
  content_edit ..

@[simp] theorem length_store (held : List StorageId) (place : Nat) (bytes : List UInt8)
    (h : Handle) : (h.store held place bytes).length = h.length := by
  rw [← length_content, content_store, overlaid]
  simp
  omega

/-- Taking bytes out clamps to what there is, wherever it happens. -/
@[simp] theorem content_remove (held : List StorageId) (place n : Nat) (h : Handle) :
    (h.remove held place n).content = removed place n h.content := by
  unfold remove removed
  split
  · next nothing =>
    rcases nothing with none | past
    · simp [none]
    · rw [List.take_of_length_le (by simpa using past), List.drop_eq_nil_of_le (by simp; omega),
        List.append_nil]
  · have clamped : ∀ m, h.content.drop (place + min m (h.length - place)) = h.content.drop (place + m) := by
      intro m
      rw [List.drop_eq_drop_iff, length_content]
      omega
    dsimp only
    split
    · next atEnd =>
      rw [content_resize, List.drop_eq_nil_of_le (by simp; omega)]
      simp
      omega
    · split
      · next atStart => rw [content_dropFirst, atStart, List.take_zero, List.nil_append,
          ← Nat.zero_add (min n _), ← atStart, clamped]
      · rw [content_edit]
        rw [clamped]

@[simp] theorem content_padTo (held : List StorageId) (room place : Nat) (h : Handle) :
    (h.padTo held room place).content = h.content ++ List.replicate (place - h.length) Byte.space := by
  rw [padTo]
  split
  · rw [content_edit, length_content]
  · next inside => rw [Nat.sub_eq_zero_of_le (by omega), List.replicate_zero, List.append_nil]

/-- Behind the spaces up to the place, the bytes are put in as they would be without these. -/
private theorem inserted_padded (place : Nat) (new bytes : List UInt8) :
    inserted place new (bytes ++ List.replicate (place - bytes.length) Byte.space) = inserted place new bytes := by
  rw [inserted, inserted]
  by_cases past : bytes.length ≤ place
  · have reached : (bytes ++ List.replicate (place - bytes.length) Byte.space).length = place := by
      rw [List.length_append, List.length_replicate]
      omega
    rw [List.take_of_length_le (Nat.le_of_eq reached), List.drop_eq_nil_of_le (Nat.le_of_eq reached), reached,
      Nat.sub_self, List.take_of_length_le past, List.drop_eq_nil_of_le past]
    simp only [List.replicate_zero, List.append_nil]
  · rw [Nat.sub_eq_zero_of_le (by omega), List.replicate_zero, List.append_nil, Nat.sub_eq_zero_of_le (by omega),
      List.replicate_zero, List.append_nil]

theorem content_insert (held : List StorageId) (place : Nat) (bytes : List UInt8) (h : Handle)
    (fits : max place h.length + bytes.length ≤ Word.maxValue) :
    (h.insert held place bytes).content =
      if bytes = [] then h.content else inserted place bytes h.content := by
  rw [insert]
  by_cases none : bytes = []
  · simp [none]
  · have nonempty : bytes.isEmpty = false := by simpa using none
    simp only [nonempty, Bool.false_eq_true, if_false, Word.add?, fits, if_true, none]
    rw [content_edit, content_padTo, ← length_content, inserted_padded]

@[simp] theorem content_replaceByte (held : List StorageId) (before after : UInt8) (h : Handle) :
    (h.replaceByte held before after).content =
      h.content.map fun b => if b = before then after else b := by
  rw [replaceByte]
  split
  · exact content_edit ..
  · next idle =>
    refine (List.map_id' h.content).symm.trans (List.map_congr_left fun b member => ?_)
    split
    · next same =>
      subst same
      exact Decidable.byContradiction fun differ => idle ⟨differ, by simpa using member⟩
    · rfl

@[simp] theorem content_fill (held : List StorageId) (b : UInt8) (length? : Option Nat)
    (h : Handle) :
    (h.fill held b length?).content = List.replicate (length?.getD h.length) b := by
  have sized : ∀ s : Handle, (if s.isEmpty then s
      else s.edit held s.length fun bytes => List.replicate bytes.length b).content =
        List.replicate s.length b := by
    intro s
    split
    · next none =>
      have : s.length = 0 := by simpa [isEmpty] using none
      rw [(content_eq_nil_iff s).mpr this, this, List.replicate_zero]
    · simp
  unfold fill
  cases length? with
  | none => exact sized h
  | some n => rw [sized, length_resize]; rfl

@[simp] theorem content_reverse (held : List StorageId) (h : Handle) :
    (h.reverse held).content = h.content.reverse := content_edit ..

end ByteFlow.Handle
