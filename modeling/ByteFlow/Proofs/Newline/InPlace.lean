import ByteFlow.Proofs.Newline

/-! The whole buffer after a pass over some of its bytes.
The bytes before the pass stay, those it is over are normalized, and from the end that it tells on the buffer is as it
was. With every access of the pass granted or refused, none is refused. -/
namespace ByteFlow.Newline
open Byte

/-- A carriage return stands at the place, and directly behind it a line feed. -/
def PairAt (s : List UInt8) (place : Nat) : Prop := s[place]? = some carriageReturn ∧ s[place + 1]? = some lineFeed

instance (s : List UInt8) (place : Nat) : Decidable (PairAt s place) := inferInstanceAs (Decidable (_ ∧ _))

/-- Normalizing keeps the bytes in their order, but for the carriage returns directly before line feeds. -/
theorem normalize_eq_filterMap (s : List UInt8) :
    normalize s = (List.range s.length).filterMap fun place => if PairAt s place then none else s[place]? := by
  induction s with
  | nil => rfl
  | cons b rest ih =>
    have first : PairAt (b :: rest) 0 ↔ b = carriageReturn ∧ rest.head? = some lineFeed := by
      simp [PairAt, List.head?_eq_getElem?]
    have later (place : Nat) : PairAt (b :: rest) (place + 1) ↔ PairAt rest place := by
      simp [PairAt]
    rw [List.length_cons, List.range_succ_eq_map, List.filterMap_cons, List.filterMap_map, normalize_cons, ih]
    simp only [Function.comp_def, Nat.succ_eq_add_one, later, List.getElem?_cons_succ, List.getElem?_cons_zero]
    by_cases pair : b = carriageReturn ∧ rest.head? = some lineFeed
    · rw [if_pos pair, if_pos (first.mpr pair)]
    · rw [if_neg pair, if_neg (mt first.mp pair)]

/-! What a pass writes -/

private theorem le_stripFrom (buffer : Array UInt8) (stop index filled : Nat) :
    filled ≤ (stripFrom buffer stop index filled).2 := by
  fun_induction stripFrom buffer stop index filled with
  | case1 => exact Nat.le_refl _
  | case2 buffer index filled more b here pair ih => exact ih
  | case3 buffer index filled more b here single ih => exact Nat.le_of_succ_le ih
  | case4 => exact Nat.le_refl _

/-- A pass writes nothing from the end on that it tells. -/
private theorem drop_stripFrom (buffer : Array UInt8) (stop index filled : Nat) :
    (stripFrom buffer stop index filled).1.toList.drop (stripFrom buffer stop index filled).2 =
      buffer.toList.drop (stripFrom buffer stop index filled).2 := by
  fun_induction stripFrom buffer stop index filled with
  | case1 => rfl
  | case2 buffer index filled more b here pair ih => exact ih
  | case3 buffer index filled more b here single ih =>
    rw [ih, Array.toList_setIfInBounds]
    exact List.drop_set_of_lt (le_stripFrom ..)
  | case4 => rfl

/-- A pass puts the normalized bytes in the place of those it is over, and changes nothing else. -/
theorem stripInPlace_eq {buffer : Array UInt8} {start stop : Nat} (before : start ≤ stop) (inside : stop ≤ buffer.size) :
    let kept := normalize ((buffer.toList.take stop).drop start)
    stripInPlace buffer start stop =
      ((buffer.toList.take start ++ kept ++ buffer.toList.drop (start + kept.length)).toArray, start + kept.length) := by
  intro kept
  obtain ⟨-, last, front⟩ := stripInPlace_spec buffer start stop before inside
  have behind : (stripInPlace buffer start stop).1.toList.drop (stripInPlace buffer start stop).2 =
      buffer.toList.drop (stripInPlace buffer start stop).2 := drop_stripFrom buffer stop start start
  have last : (stripInPlace buffer start stop).2 = start + kept.length := last
  rw [last] at front behind
  refine Prod.ext ?_ last
  apply Array.toList_inj.mp
  calc (stripInPlace buffer start stop).1.toList
    _ = (stripInPlace buffer start stop).1.toList.take (start + kept.length) ++
          (stripInPlace buffer start stop).1.toList.drop (start + kept.length) := (List.take_append_drop _ _).symm
    _ = buffer.toList.take start ++ kept ++ buffer.toList.drop (start + kept.length) := by rw [front, behind]

/-! The pass with every access granted or refused -/

/-- The buffer with a byte put at a place, if there is such a place. -/
def put? (buffer : Array UInt8) (place : Nat) (b : UInt8) : Option (Array UInt8) :=
  if place < buffer.size then some (buffer.setIfInBounds place b) else none

/-- Whether the byte at `index` is a carriage return that goes. Only behind a carriage return is there a look ahead. -/
def goes? (buffer : Array UInt8) (stop index : Nat) (b : UInt8) : Option Bool :=
  if b = carriageReturn ∧ index + 1 < stop then buffer[index + 1]?.map (· == lineFeed) else some false

def stripFrom? (buffer : Array UInt8) (stop index filled : Nat) : Option (Array UInt8 × Nat) :=
  if _more : index < stop then do
    let b ← buffer[index]?
    if ← goes? buffer stop index b then stripFrom? buffer stop (index + 1) filled
    else stripFrom? (← put? buffer filled b) stop (index + 1) (filled + 1)
  else some (buffer, filled)
termination_by stop - index

def stripInPlace? (buffer : Array UInt8) (start stop : Nat) : Option (Array UInt8 × Nat) :=
  stripFrom? buffer stop start start

private theorem goes?_eq {buffer : Array UInt8} {stop : Nat} (inside : stop ≤ buffer.size) (index : Nat) (b : UInt8) :
    goes? buffer stop index b =
      some (decide (b = carriageReturn ∧ index + 1 < stop ∧ buffer[index + 1]? = some lineFeed)) := by
  rw [goes?]
  split
  · next looks =>
    have there : buffer[index + 1]? = some buffer[index + 1] := Array.getElem?_eq_getElem (by omega)
    rw [there]
    simp [looks, beq_eq_decide]
  · next plain =>
    have stays : ¬ (b = carriageReturn ∧ index + 1 < stop ∧ buffer[index + 1]? = some lineFeed) :=
      fun pair => plain ⟨pair.1, pair.2.1⟩
    rw [decide_eq_false stays]

/-- What is written lies behind what is read, so that all of it is inside the buffer. -/
private theorem stripFrom?_eq {buffer : Array UInt8} {stop index filled : Nat} (behind : filled ≤ index)
    (inside : stop ≤ buffer.size) :
    stripFrom? buffer stop index filled = some (stripFrom buffer stop index filled) := by
  fun_induction stripFrom buffer stop index filled with
  | case1 buffer index filled more absent =>
    rw [Array.getElem?_eq_none_iff] at absent
    omega
  | case2 buffer index filled more b here pair ih =>
    rw [stripFrom?, dif_pos more, here]
    simp only [Option.bind_eq_bind, Option.bind_some, goes?_eq inside, decide_eq_true pair, if_true]
    exact ih (Nat.le_succ_of_le behind) inside
  | case3 buffer index filled more b here single ih =>
    have room : put? buffer filled b = some (buffer.setIfInBounds filled b) := if_pos (by omega)
    rw [stripFrom?, dif_pos more, here]
    simp only [Option.bind_eq_bind, Option.bind_some, goes?_eq inside, decide_eq_false single, Bool.false_eq_true,
      if_false, room]
    exact ih (Nat.succ_le_succ behind) (by rwa [Array.size_setIfInBounds])
  | case4 buffer index filled done =>
    rw [stripFrom?, dif_neg done]

theorem stripInPlace?_eq {buffer : Array UInt8} {stop : Nat} (inside : stop ≤ buffer.size) (start : Nat) :
    stripInPlace? buffer start stop = some (stripInPlace buffer start stop) :=
  stripFrom?_eq (Nat.le_refl start) inside

end ByteFlow.Newline
