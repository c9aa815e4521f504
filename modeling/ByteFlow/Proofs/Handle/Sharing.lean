import ByteFlow.Handle.Table
import Mathlib.Data.List.Basic

/-! Where an operation leaves the bytes of a handle.
A new storage has a name that nobody holds, and a storage is written only under such a name. -/
namespace ByteFlow.Handle

/-- Where bytes may be kept after an operation on bytes kept in `old`: nowhere, where they were, or in
heap storage whose name is not in `held`. -/
inductive Placed (held : List StorageId) (old : Storage) : Storage → Prop where
  | absent : Placed held old .absent
  | same : Placed held old old
  | own (id : StorageId) (bytes : List UInt8) (capacity : Nat) (free : id ∉ held) :
      Placed held old (.heap id bytes capacity)

theorem Placed.trans {held : List StorageId} {a b c : Storage} (first : Placed held a b)
    (second : Placed held b c) : Placed held a c := by
  cases second with
  | absent => exact .absent
  | same => exact first
  | own id bytes capacity free => exact .own id bytes capacity free

/-- Whoever shares with fewer may place bytes wherever one that shares with more may. -/
theorem Placed.mono {held more : List StorageId} {a b : Storage} (placed : Placed more a b)
    (fewer : ∀ id ∈ held, id ∈ more) : Placed held a b := by
  cases placed with
  | absent => exact .absent
  | same => exact .same
  | own id bytes capacity free => exact .own id bytes capacity fun member => free (fewer id member)

private theorem le_foldl_max (held : List StorageId) (least : Nat) :
    least ≤ held.foldl max least ∧ ∀ id ∈ held, id ≤ held.foldl max least := by
  induction held generalizing least with
  | nil => simp
  | cons id held ih =>
    obtain ⟨above, all⟩ := ih (max least id)
    rw [List.foldl_cons, List.forall_mem_cons]
    exact ⟨Nat.le_trans (Nat.le_max_left ..) above, Nat.le_trans (Nat.le_max_right ..) above, all⟩

theorem fresh_notMem (held : List StorageId) : fresh held ∉ held := by
  intro member
  exact Nat.not_succ_le_self _ ((le_foldl_max held 0).2 _ member)

/-! Sharing -/

/-- A detached handle looks at heap storage from its beginning on, and nobody else does. -/
theorem isDetached_iff {held : List StorageId} {h : Handle} : h.isDetached held = true ↔
    ∃ id bytes capacity, h.storage = .heap id bytes capacity ∧ h.start = 0 ∧ id ∉ held := by
  cases stored : h.storage with
  | heap id bytes capacity => simp [isDetached, stored]
  | absent | fixed => simp [isDetached, stored]

/-- Handles on one storage share it, unless there is nothing to see. -/
theorem sharesWith_of_storage {b h : Handle} (some : 0 < b.length) (same : h.storage = b.storage) :
    h.sharesWith b = true := by
  have inside := b.inside
  unfold sharesWith
  rw [same]
  cases storage : b.storage with
  | absent =>
    simp only [storage, Storage.bytes, List.length_nil] at inside
    omega
  | fixed id bytes =>
    have filled : bytes ≠ [] := by
      rintro rfl
      simp only [storage, Storage.bytes, List.length_nil] at inside
      omega
    simp [filled]
  | heap id bytes capacity => simp

/-- A handle that keeps nothing, or keeps it where nobody else looks, shares with nobody else. -/
theorem Placed.unshared {held : List StorageId} {h g : Handle} (placed : Placed held .absent h.storage)
    (holds : ∀ id, g.id? = some id → id ∈ held) : h.sharesWith g = false := by
  unfold sharesWith
  cases stored : h.storage with
  | absent => rfl
  | fixed => rw [stored] at placed; cases placed
  | heap id bytes capacity =>
    rw [stored] at placed
    cases placed with
    | own _ _ _ free =>
      cases other : g.storage with
      | absent => rfl
      | fixed => rfl
      | heap id' bytes' capacity' =>
        have differs : id ≠ id' := fun same => free (same ▸ holds id' (by rw [id?, other]; rfl))
        simpa using differs

/-! Making handles -/

variable (held : List StorageId) (h : Handle) {old : Storage}

theorem placed_allocate {more : List StorageId} (capacity : Nat) (bytes : List UInt8)
    (fewer : ∀ id ∈ held, id ∈ more) : Placed held old (allocate more capacity bytes).storage :=
  .own _ _ _ fun member => fresh_notMem more (fewer _ member)

theorem placed_ofList {more : List StorageId} (bytes : List UInt8) (fewer : ∀ id ∈ held, id ∈ more) :
    Placed held old (ofList more bytes).storage := by
  rw [ofList]
  split
  · exact .absent
  · exact placed_allocate held 0 bytes fewer

theorem placed_view (offset length : Nat) (fits : offset + length ≤ h.length) :
    Placed held h.storage (h.view offset length fits).storage := by
  rw [view]
  split
  · exact .absent
  · exact .same

theorem placed_left (n : Nat) : Placed held h.storage (h.left n).storage :=
  placed_view held h 0 (min n h.length) (by omega)

theorem placed_right (n : Nat) : Placed held h.storage (h.right n).storage :=
  placed_view held h (h.length - min n h.length) (min n h.length) (by omega)

theorem placed_mid (place : Nat) (n? : Option Nat) : Placed held h.storage (h.mid place n?).storage := by
  rw [mid]
  split
  · exact placed_view ..
  · exact .absent

/-! Changes -/

/-- A write goes to heap storage that nobody else holds, in place or not. -/
theorem storage_edit (room : Nat) (f : List UInt8 → List UInt8) :
    ∃ id bytes capacity, (h.edit held room f).storage = .heap id bytes capacity ∧ id ∉ held := by
  have free : ∀ id, fresh (id :: held) ∉ held := fun id member =>
    fresh_notMem (id :: held) (List.mem_cons_of_mem id member)
  refine ⟨_, _, _, rfl, ?_⟩
  rw [ownId]
  split
  · next id _ _ same =>
    split
    · next detached =>
      obtain ⟨_, _, _, stored, -, free⟩ := isDetached_iff.mp detached
      cases same.symm.trans stored
      exact free
    · exact free id
  · next id _ _ => exact free id
  · exact fresh_notMem held

theorem placed_edit (room : Nat) (f : List UInt8 → List UInt8) :
    Placed held old (h.edit held room f).storage := by
  obtain ⟨id, bytes, capacity, same, free⟩ := storage_edit held h room f
  rw [same]
  exact .own id bytes capacity free

private theorem placed_resizeWith (n : Nat) (b : UInt8) : Placed held h.storage (h.resizeWith held n b).storage := by
  rw [resizeWith]
  split
  · split
    · exact .absent
    · exact .same
  · split
    · exact .same
    · exact placed_edit ..

theorem placed_resize (n : Nat) : Placed held h.storage (h.resize held n).storage :=
  placed_resizeWith held h n 0

private theorem placed_reserve (capacity : Nat) : Placed held h.storage (h.reserve held capacity).storage := by
  unfold reserve
  dsimp only
  split
  · exact .same
  · obtain ⟨id, bytes, room, same, free⟩ := storage_edit held { h with reserved := true } capacity id
    rw [withRoom]
    split
    · next other _ _ moved =>
      rw [same] at moved
      cases moved
      exact .own _ _ _ free
    · exact placed_edit ..

private theorem placed_squeeze : Placed held h.storage (h.squeeze held).storage := by
  rw [squeeze]
  split
  · exact .same
  · split
    · exact .absent
    · split
      · next id _ _ same =>
        split
        · next detached =>
          obtain ⟨_, _, _, stored, -, free⟩ := isDetached_iff.mp detached
          cases same.symm.trans stored
          exact .own _ _ _ free
        · exact .same
      · exact .same

private theorem placed_truncate (n : Nat) : Placed held h.storage (h.truncate held n).storage := by
  rw [truncate]
  split
  · exact placed_resize ..
  · exact .same

theorem placed_append (bytes : List UInt8) : Placed held h.storage (h.append held bytes).storage := by
  rw [append]
  split
  · exact .same
  · exact placed_edit ..

theorem placed_insert (place : Nat) (bytes : List UInt8) :
    Placed held h.storage (h.insert held place bytes).storage := by
  rw [insert]
  split
  · exact .same
  · split
    · exact .same
    · exact placed_edit ..

theorem placed_remove (place n : Nat) : Placed held h.storage (h.remove held place n).storage := by
  rw [remove]
  split
  · exact .same
  · dsimp only
    split
    · exact placed_resize ..
    · split
      · exact .same
      · exact placed_edit ..

private theorem placed_replace (place n : Nat) (after : List UInt8) :
    Placed held h.storage (Broken.after (h.replace held place n after)).storage := by
  rw [replace]
  split
  · split
    · exact .same
    · split
      · exact placed_edit ..
      · exact placed_edit ..
  · exact (placed_remove held h place n).trans (placed_insert held _ place after)

/-- Storages held by others are among those held by others and the handle itself. -/
theorem mem_id_append {id : StorageId} (member : id ∈ held) : id ∈ h.id?.toList ++ held :=
  List.mem_append_right _ member

private theorem placed_replaceAll (before after : List UInt8) :
    Placed held h.storage (h.replaceAll held before after).storage := by
  rw [replaceAll]
  split
  · exact .same
  · split
    · exact .absent
    · exact placed_allocate held _ _ fun _ => mem_id_append held h

private theorem placed_replaceByte (before after : UInt8) :
    Placed held h.storage (h.replaceByte held before after).storage := by
  rw [replaceByte]
  split
  · exact placed_edit ..
  · exact .same

private theorem placed_fill (b : UInt8) (length? : Option Nat) :
    Placed held h.storage (h.fill held b length?).storage := by
  unfold fill
  cases length? with
  | none =>
    dsimp only
    split
    · exact .same
    · exact placed_edit ..
  | some n =>
    dsimp only
    split
    · exact placed_resize held h n
    · exact placed_edit ..

private theorem placed_set (index : Nat) (b : UInt8) : Placed held h.storage (h.set held index b).storage := by
  rw [set]
  split
  · exact .same
  · exact placed_edit ..

private theorem placed_copyUnless (same : Bool) (bytes : List UInt8) :
    Placed held h.storage (h.copyUnless held same bytes).storage := by
  rw [copyUnless]
  split
  · exact .same
  · exact placed_ofList held bytes fun _ => mem_id_append held h

private theorem placed_simplified : Placed held h.storage (h.simplified held).storage := by
  rw [simplified]
  split
  · exact .same
  · dsimp only
    split
    · exact .absent
    · exact placed_allocate held _ _ fun _ => mem_id_append held h

private theorem placed_repeated (n : Nat) : Placed held h.storage (h.repeated held n).storage := by
  rw [repeated]
  split
  · exact .same
  · split
    · exact .absent
    · exact placed_ofList held _ fun _ => mem_id_append held h

/-- Every change keeps to what the handle alone holds, and so does what one that breaks off leaves. -/
private theorem Change.placed (change : Change) :
    Placed held h.storage (Broken.after (change.apply held h)).storage := by
  cases change with
  | replace place n after => exact placed_replace held h place n after
  | resize n b => exact placed_resizeWith held h n b
  | reserve capacity => exact placed_reserve held h capacity
  | squeeze => exact placed_squeeze held h
  | truncate n => exact placed_truncate held h n
  | chop n => exact placed_truncate held h _
  | clear => exact .absent
  | append bytes => exact placed_append held h bytes
  | prepend bytes => exact placed_insert held h 0 bytes
  | insert place bytes => exact placed_insert held h place bytes
  | remove place n => exact placed_remove held h place n
  | replaceAll before after => exact placed_replaceAll held h before after
  | replaceByte before after => exact placed_replaceByte held h before after
  | fill b length? => exact placed_fill held h b length?
  | set index b => exact placed_set held h index b
  | lower =>
    show Placed held h.storage (h.intoLower held).storage
    rw [intoLower]
    split
    · exact placed_edit ..
    · exact placed_copyUnless ..
  | upper =>
    show Placed held h.storage (h.intoUpper held).storage
    rw [intoUpper]
    split
    · exact placed_edit ..
    · exact placed_copyUnless ..
  | trim =>
    show Placed held h.storage (h.intoTrimmed held).storage
    rw [intoTrimmed]
    split
    · exact placed_edit ..
    · exact placed_mid ..
  | simplify =>
    show Placed held h.storage (h.intoSimplified held).storage
    rw [intoSimplified]
    split
    · exact placed_simplified held h
    · split
      · exact .same
      · exact placed_edit ..
  | push b => exact placed_edit held h (h.length + 1) (· ++ [b])
  | extend bytes => exact placed_edit held h (h.length + bytes.length) (· ++ bytes)
  | detach | store | reverse => exact placed_edit ..

theorem Derivation.placed (derivation : Derivation) {r : Handle}
    (derived : derivation.make held h = .ok r) : Placed held h.storage r.storage := by
  cases derivation with
  | slice first last =>
    simp only [make, Handle.slice, bind, Except.bind] at derived
    split at derived
    · cases derived
    · split at derived
      · cases derived
      · split at derived
        · cases derived
          exact placed_view ..
        · cases derived
  | clone => cases derived; exact .same
  | lower => cases derived; exact placed_copyUnless ..
  | upper => cases derived; exact placed_copyUnless ..
  | simplified => cases derived; exact placed_simplified held h
  | repeated n => cases derived; exact placed_repeated held h n
  | plus bytes => cases derived; exact placed_append held h bytes
  | mid place n? => cases derived; exact placed_mid ..
  | trimmed => cases derived; exact placed_mid ..
  | left n => cases derived; exact placed_left held h n
  | right n => cases derived; exact placed_right held h n
  | chopped n => cases derived; exact placed_left held h _

private theorem placed_appendShared {more : List StorageId} (other : Handle) (fewer : ∀ id ∈ held, id ∈ more) :
    Placed held h.storage (h.appendShared more other).storage ∨
      h.appendShared more other = other := by
  rw [appendShared]
  split
  · exact .inr rfl
  · exact .inl ((placed_append more h other.content).mono fewer)

theorem placed_splitFrom (separator : UInt8) (start : Nat) :
    ∀ piece ∈ h.splitFrom separator start, Placed held h.storage piece.storage := by
  induction left : h.length - start using Nat.strongRecOn generalizing start with
  | ind _ ih =>
    subst left
    rw [splitFrom]
    split
    · simpa using placed_mid held h start Option.none
    · next i _ =>
      rw [List.forall_mem_cons]
      refine ⟨placed_mid .., ?_⟩
      split
      · exact ih _ (by omega) _ rfl
      · simp

/-! What an action can do -/

namespace Table

/-- The name that an action stores a handle under or looks at. -/
def Action.target : Action → String
  | .make name _ | .derive name _ _ | .change name _ | .appendShared name _ | .splitOff name _ _
  | .splitTo name _ _ | .split name _ | .drop name => name

/-- The names that an action may give another handle or take away. -/
def Action.Names : Action → String → Prop
  | .splitOff name source _, other | .splitTo name source _, other => other = name ∨ other = source
  | .split name _, other => ∃ k : Nat, other = name ++ "." ++ toString k
  | action, other => other = action.target

/-- What an action makes of the table, and where it leaves the bytes of the handle that it is about. -/
inductive Outcome (outside : List StorageId) (t : Table) (action : Action) : Table → Prop where
  | same : Outcome outside t action t
  | made (named : action.Names action.target) (origin : Origin) (made : action = .make action.target origin) :
      Outcome outside t action (t.put action.target (origin.make (outside ++ t.held)))
  | derived (named : action.Names action.target) {source : String} {h g : Handle} (found : t.find? source = some h)
      (placed : Placed (outside ++ t.held) h.storage g.storage) : Outcome outside t action (t.put action.target g)
  | changed (named : action.Names action.target) {h g : Handle} (found : t.find? action.target = some h)
      (placed : Placed (outside ++ t.heldByOthers action.target) h.storage g.storage) :
      Outcome outside t action (t.put action.target g)
  | parted (named : action.Names action.target) {source : String} (cut : action.Names source)
      {h first second : Handle} (found : t.find? source = some h)
      (viewed : ∀ held, Placed held h.storage first.storage) (kept : second.storage = h.storage) :
      Outcome outside t action ((t.put source second).put action.target first)
  | split (named : ∀ k : Nat, action.Names (action.target ++ "." ++ toString k)) {h : Handle}
      (found : t.find? action.target = some h) (pieces : List Handle)
      (viewed : ∀ piece ∈ pieces, ∀ held, Placed held h.storage piece.storage) :
      Outcome outside t action (t.putPieces action.target pieces)
  | dropped (named : action.Names action.target) : Outcome outside t action (t.drop action.target)

/-- What is put under the name is what the change makes of the handle, or what it leaves when it breaks off. -/
@[simp] theorem after_putBroken (t : Table) (name : String) (done : Except (Broken Handle) Handle) :
    Broken.after (t.putBroken name done) = t.put name (Broken.after done) := by
  cases done <;> rfl

theorem stepBeside_outcome (t : Table) (outside : List StorageId) (action : Action) :
    Outcome outside t action (Broken.after (t.stepBeside outside action)) := by
  cases action with
  | make name origin =>
    have named : (Action.make name origin).Names name := rfl
    exact .made named origin rfl
  | derive name source derivation =>
    have named : (Action.derive name source derivation).Names name := rfl
    simp only [stepBeside]
    cases found : t.find? source with
    | none => exact .same
    | some h =>
      dsimp only
      cases derived : derivation.make (outside ++ t.held) h with
      | error => exact .same
      | ok g => exact .derived named found (derivation.placed _ h derived)
  | change name change =>
    have named : (Action.change name change).Names name := rfl
    simp only [stepBeside]
    cases found : t.find? name with
    | none => exact .same
    | some h =>
      dsimp only
      rw [after_putBroken]
      exact .changed named found (change.placed _ h)
  | appendShared name source =>
    have named : (Action.appendShared name source).Names name := rfl
    simp only [stepBeside]
    cases found : t.find? name with
    | none => exact .same
    | some h =>
      cases given : t.find? source with
      | none => exact .same
      | some other =>
        dsimp only
        rcases placed_appendShared (outside ++ t.heldByOthers name) h other fun _ => mem_id_append _ other with own | shared
        · exact .changed named found own
        · rw [shared]
          exact .derived named given .same
  | splitOff name source place =>
    have named : (Action.splitOff name source place).Names name := .inl rfl
    have cut : (Action.splitOff name source place).Names source := .inr rfl
    simp only [stepBeside, Handle.splitOff]
    cases found : t.find? source with
    | none => exact .same
    | some h =>
      by_cases fits : place ≤ h.length
      · simp only [fits, dif_pos]
        exact .parted named cut found (fun held => placed_view held h _ _ _) rfl
      · simp only [fits, dif_neg, not_false_eq_true]
        exact .same
  | splitTo name source place =>
    have named : (Action.splitTo name source place).Names name := .inl rfl
    have cut : (Action.splitTo name source place).Names source := .inr rfl
    simp only [stepBeside, Handle.splitTo]
    cases found : t.find? source with
    | none => exact .same
    | some h =>
      by_cases fits : place ≤ h.length
      · simp only [fits, dif_pos]
        exact .parted named cut found (fun held => placed_view held h _ _ _) rfl
      · simp only [fits, dif_neg, not_false_eq_true]
        exact .same
  | split name separator =>
    have named (k : Nat) : (Action.split name separator).Names (name ++ "." ++ toString k) := ⟨k, rfl⟩
    simp only [stepBeside]
    cases found : t.find? name with
    | none => exact .same
    | some h => exact .split named found _ fun piece member held => placed_splitFrom held h separator 0 piece member
  | drop name =>
    have named : (Action.drop name).Names name := rfl
    exact .dropped named

end Table

end ByteFlow.Handle
