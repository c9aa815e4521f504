import ByteFlow.Proofs.Handle.Caller
import ByteFlow.Proofs.Handle.Text

/-! The room of storages.
A storage grows to twice its room or to what is needed, so it never has much more than was asked for. Where every action
that asks for too much breaks off, all bytes lie in the room of their storage, and no storage exceeds the limit. -/
namespace ByteFlow

namespace Storage

variable {room needed length : Nat}

theorem grown_of_le (enough : needed ≤ room) : grown room needed = room := if_pos enough

theorem le_grown (room needed : Nat) : room ≤ grown room needed := by
  rw [grown]
  split <;> omega

theorem needed_le_grown (room needed : Nat) : needed ≤ grown room needed := by
  rw [grown]
  split <;> omega

/-- Growing takes no more than twice what is needed, or eight bytes. -/
theorem grown_le (room needed : Nat) : grown room needed ≤ max room (max (2 * needed) 8) := by
  rw [grown]
  split <;> omega

private theorem grown_grown (few : length ≤ room) : grown (grown room length) needed = grown room needed := by
  rw [grown_of_le few]

private theorem le_grownAlong (pieces : List (List UInt8)) (fits : length ≤ room) :
    length + pieces.flatten.length ≤ grownAlong room length pieces := by
  induction pieces generalizing room length with
  | nil => exact fits
  | cons piece rest ih =>
    have next := @ih (grown room (length + piece.length)) (length + piece.length) (needed_le_grown ..)
    rw [List.flatten_cons, List.length_append, ← Nat.add_assoc]
    exact next

theorem grownAlong_le (room length : Nat) (pieces : List (List UInt8)) :
    grownAlong room length pieces ≤ max room (max (2 * (length + pieces.flatten.length)) 8) := by
  induction pieces generalizing room length with
  | nil => exact Nat.le_max_left ..
  | cons piece rest ih =>
    have first := grown_le room (length + piece.length)
    have next := ih (grown room (length + piece.length)) (length + piece.length)
    rw [List.flatten_cons, List.length_append, ← Nat.add_assoc, grownAlong]
    omega

/-- A storage as it can be had: its bytes lie in its room, which is no more than any storage has. -/
def Granted : Storage → Prop
  | absent => True
  | fixed _ bytes => bytes.length ≤ limit
  | heap _ bytes capacity => bytes.length ≤ capacity ∧ capacity ≤ limit

instance (s : Storage) : Decidable s.Granted := by
  cases s <;> unfold Granted <;> infer_instance

theorem Granted.room_le {s : Storage} (granted : s.Granted) : s.room ≤ limit := by
  cases s with
  | heap => exact granted.2
  | absent | fixed => exact Nat.zero_le _

private theorem Granted.bytes_le {s : Storage} (granted : s.Granted) : s.bytes.length ≤ limit := by
  cases s with
  | absent => exact Nat.zero_le _
  | fixed => exact granted
  | heap => exact Nat.le_trans granted.1 granted.2

end Storage

namespace Text.Spacing

/-- A simplifying pass gathers its text in the buffer of the old one. -/
private theorem length_simplify_le (s : List UInt8) : (simplify s).length ≤ s.length := by
  have accepts (p : Pass) (i : Nat) : (p.accept i).buffer.size = p.buffer.size := by
    rw [Pass.accept]
    split
    · rfl
    · split
      · rfl
      · split <;> simp
  have passes (indices : List Nat) (p : Pass) : (indices.foldl Pass.accept p).buffer.size = p.buffer.size := by
    induction indices generalizing p with
    | nil => rfl
    | cons i rest ih => rw [List.foldl_cons, ih, accepts]
  simp only [simplify, List.length_take, Array.length_toList, passes, List.size_toArray]
  exact Nat.min_le_right ..

private theorem length_trim_le (s : List UInt8) : (trim s).length ≤ s.length := by
  rw [trim, List.length_drop, List.length_take]
  omega

end Text.Spacing

namespace Handle

variable {held : List StorageId} {h g : Handle} {place n room : Nat}

theorem length_le_limit (granted : h.storage.Granted) : h.length ≤ Storage.limit := by
  have inside := h.inside
  have few := granted.bytes_le
  omega

/-! Writing -/

theorem isDetached_edit (held : List StorageId) (room : Nat) (f : List UInt8 → List UInt8) (h : Handle) :
    (h.edit held room f).isDetached held = true := by
  obtain ⟨id, bytes, capacity, stored, free⟩ := storage_edit held h room f
  exact isDetached_iff.mpr ⟨id, bytes, capacity, stored, rfl, free⟩

theorem length_edit (held : List StorageId) (room : Nat) (f : List UInt8 → List UInt8) (h : Handle) :
    (h.edit held room f).length = (f h.content).length := by
  rw [← length_content, content_edit]

@[simp] theorem room_edit (held : List StorageId) (room : Nat) (f : List UInt8 → List UInt8) (h : Handle) :
    (h.edit held room f).storage.room = h.roomFor held room (f h.content).length := rfl

theorem roomFor_of_isDetached (room n : Nat) (detached : h.isDetached held = true) :
    h.roomFor held room n = Storage.grown h.storage.room n := by
  rw [roomFor, if_pos detached]

theorem roomFor_of_not_isDetached (room n : Nat) (apart : h.isDetached held = false) :
    h.roomFor held room n = Storage.grown (max room h.length) n := by
  rw [roomFor, if_neg (by simp [apart])]

/-- A handle on storage of its own has the room of what it shows. -/
theorem length_le_room (granted : h.storage.Granted) (detached : h.isDetached held = true) : h.length ≤ h.storage.room := by
  obtain ⟨id, bytes, capacity, stored, -, -⟩ := isDetached_iff.mp detached
  have inside := h.inside
  rw [stored] at granted inside ⊢
  exact Nat.le_trans (by simp only [Storage.bytes] at inside; omega) granted.1

/-- To write no more than is shown asks for nothing that could not be had. -/
private theorem roomFor_le (granted : h.storage.Granted) (asked : room ≤ h.length) (few : n ≤ h.length) :
    h.roomFor held room n ≤ Storage.limit := by
  by_cases detached : h.isDetached held = true
  · rw [roomFor_of_isDetached room n detached, Storage.grown_of_le (Nat.le_trans few (length_le_room granted detached))]
    exact granted.room_le
  · rw [roomFor_of_not_isDetached room n (by simpa using detached), Storage.grown_of_le (by omega),
      Nat.max_eq_right asked]
    exact length_le_limit granted

private theorem granted_edit (f : List UInt8 → List UInt8)
    (had : h.roomFor held room (f h.content).length ≤ Storage.limit) :
    (h.edit held room f).storage.Granted :=
  ⟨Storage.needed_le_grown .., had⟩

/-- A write of no more than is shown. -/
private theorem granted_edit_of_le (granted : h.storage.Granted) (f : List UInt8 → List UInt8)
    (few : (f h.content).length ≤ h.length) : (h.edit held h.length f).storage.Granted :=
  granted_edit f (roomFor_le granted (Nat.le_refl _) few)

private theorem granted_allocate {bytes : List UInt8} (had : max room bytes.length ≤ Storage.limit) :
    (allocate held room bytes).storage.Granted :=
  ⟨Nat.le_max_right .., had⟩

private theorem granted_ofList {bytes : List UInt8} (had : bytes.length ≤ Storage.limit) :
    (ofList held bytes).storage.Granted := by
  rw [ofList]
  split
  · trivial
  · exact granted_allocate (by omega)

/-- What lies where a handle was whatever others hold. -/
private theorem granted_of_placed (granted : h.storage.Granted) (placed : ∀ held, Placed held h.storage g.storage) :
    g.storage.Granted := by
  generalize h.storage = old at granted placed
  cases stored : g.storage with
  | absent => trivial
  | fixed id bytes =>
    rw [stored] at placed
    cases placed [] with
    | same => exact granted
  | heap id bytes capacity =>
    rw [stored] at placed
    cases placed [id] with
    | same => exact granted
    | own _ _ _ free => exact absurd (List.mem_singleton_self id) free

/-! Changes -/

private theorem granted_resizeWith (granted : h.storage.Granted) (b : UInt8)
    (had : h.length < n → h.roomFor held n n ≤ Storage.limit) : (h.resizeWith held n b).storage.Granted := by
  rw [resizeWith]
  split
  · split
    · trivial
    · exact granted
  · split
    · exact granted
    · refine granted_edit _ ?_
      simp only [List.length_append, List.length_replicate, length_content]
      rw [Nat.add_sub_of_le (by omega)]
      exact had (by omega)

private theorem granted_truncate (granted : h.storage.Granted) (n : Nat) : (h.truncate held n).storage.Granted := by
  rw [truncate]
  split
  · exact granted_resizeWith granted 0 (by omega)
  · exact granted

private theorem granted_withRoom (granted : h.storage.Granted) {capacity : Nat}
    (had : Storage.grown h.storage.room capacity ≤ Storage.limit) : (h.withRoom capacity).storage.Granted := by
  rw [withRoom]
  split
  · next stored =>
    rw [stored] at granted had
    exact ⟨Nat.le_trans granted.1 (Storage.le_grown ..), had⟩
  · exact granted

private theorem granted_reserve (granted : h.storage.Granted) {capacity : Nat}
    (had : h.roomFor held capacity capacity ≤ Storage.limit) :
    (h.reserve held capacity).storage.Granted := by
  let pinned : Handle := { h with reserved := true }
  unfold reserve
  dsimp only
  split
  · exact granted
  · have twice : Storage.grown (pinned.edit held capacity id).storage.room capacity = h.roomFor held capacity capacity := by
      have shown : (id pinned.content).length = h.length := length_content h
      rw [room_edit, shown]
      by_cases detached : h.isDetached held = true
      · rw [roomFor_of_isDetached capacity capacity detached, roomFor_of_isDetached capacity _ (h := pinned) detached]
        exact Storage.grown_grown (length_le_room granted detached)
      · have apart : h.isDetached held = false := by simpa using detached
        rw [roomFor_of_not_isDetached capacity capacity apart, roomFor_of_not_isDetached capacity _ (h := pinned) apart]
        exact Storage.grown_grown (Nat.le_max_right ..)
    rw [← twice] at had
    exact granted_withRoom (granted_edit id (Nat.le_trans (Storage.le_grown ..) had)) had

@[simp] theorem length_inserted (place : Nat) (new bytes : List UInt8) :
    (inserted place new bytes).length = max place bytes.length + new.length := by
  simp only [inserted, List.length_append, List.length_take, List.length_replicate, List.length_drop]
  omega

/-- What an insertion asks for is the room of the storage that it writes to. -/
private theorem room_insert {bytes : List UInt8} (some : bytes ≠ [])
    (fits : max place h.length + bytes.length ≤ Word.maxValue) :
    (h.insert held place bytes).storage.room = h.roomToInsert held place bytes.length := by
  have long : bytes.length ≠ 0 := fun none => some (List.length_eq_zero_iff.mp none)
  rw [insert, if_neg (by simpa using some), roomToInsert, if_neg long, Word.add?, if_pos fits]
  dsimp only
  rw [room_edit, length_inserted, content_padTo, List.length_append, List.length_replicate, length_content]
  by_cases past : h.length < place
  · rw [padTo, if_pos past, if_pos past, roomFor_of_isDetached _ _ (isDetached_edit ..), room_edit, List.length_append,
      List.length_replicate, length_content, Nat.add_sub_of_le (Nat.le_of_lt past), Nat.max_self,
      Nat.max_eq_left (Nat.le_of_lt past)]
  · rw [padTo, if_neg past, if_neg past, Nat.sub_eq_zero_of_le (by omega), Nat.add_zero]

theorem insert_eq_self {bytes : List UInt8} (nothing : bytes = [] ∨ Word.maxValue < max place h.length + bytes.length) :
    h.insert held place bytes = h := by
  rcases nothing with rfl | far
  · rfl
  · rw [insert, Word.add?, if_neg (Nat.not_le.mpr far)]
    split <;> rfl

private theorem granted_insert (granted : h.storage.Granted) {bytes : List UInt8}
    (had : h.roomToInsert held place bytes.length ≤ Storage.limit) : (h.insert held place bytes).storage.Granted := by
  by_cases some : bytes ≠ [] ∧ max place h.length + bytes.length ≤ Word.maxValue
  · rw [← room_insert some.1 some.2] at had
    rw [insert, if_neg (by simpa using some.1), Word.add?, if_pos some.2] at had ⊢
    exact granted_edit _ had
  · rw [not_and_or, not_not, Nat.not_le] at some
    rwa [insert_eq_self some]

theorem length_removed (place n : Nat) (bytes : List UInt8) :
    (removed place n bytes).length = bytes.length - min n (bytes.length - place) := by
  rw [removed, List.length_append, List.length_take, List.length_drop]
  omega

theorem granted_remove (granted : h.storage.Granted) (place n : Nat) : (h.remove held place n).storage.Granted := by
  rw [remove]
  split
  · exact granted
  · dsimp only
    split
    · exact granted_resizeWith granted 0 (by omega)
    · split
      · exact granted
      · refine granted_edit_of_le granted _ ?_
        rw [length_removed, length_content]
        exact Nat.sub_le ..

private theorem granted_store (granted : h.storage.Granted) (place : Nat) (bytes : List UInt8) :
    (h.store held place bytes).storage.Granted := by
  refine granted_edit_of_le granted (overlaid place bytes) ?_
  rw [← length_edit held h.length (overlaid place bytes) h]
  exact Nat.le_of_eq (length_store ..)

private theorem granted_replace (granted : h.storage.Granted) {after : List UInt8}
    (had : (Change.replace place n after).need held h ≤ Storage.limit) :
    (Broken.after (h.replace held place n after)).storage.Granted := by
  rw [Change.need] at had
  rw [replace]
  split at had
  · next seems =>
    rw [if_pos seems]
    split
    · exact granted
    · split
      · exact granted_store granted place after
      · exact granted_edit_of_le granted id (Nat.le_of_eq (length_content h))
  · next beside =>
    rw [if_neg beside]
    exact granted_insert (granted_remove granted place n) had

private theorem granted_replaceAll (granted : h.storage.Granted) {before after : List UInt8}
    (had : (Change.replaceAll before after).need held h ≤ Storage.limit) :
    (h.replaceAll held before after).storage.Granted := by
  rw [Change.need] at had
  rw [replaceAll]
  cases found : Search.replaceAll? h.content before after with
  | none => exact granted
  | some pieces =>
    have whole := Storage.le_grownAlong pieces (Nat.zero_le h.length)
    simp only [found] at had
    dsimp only
    split
    · trivial
    · exact granted_allocate (Nat.max_le.mpr ⟨had, by omega⟩)

private theorem granted_squeeze (granted : h.storage.Granted) : (h.squeeze held).storage.Granted := by
  rw [squeeze]
  split
  · exact granted
  · split
    · trivial
    · split
      · split
        · exact ⟨Nat.le_of_eq (length_content h), length_le_limit granted⟩
        · exact granted
      · exact granted

private theorem granted_append (granted : h.storage.Granted) {bytes : List UInt8}
    (had : h.roomFor held (h.length + bytes.length) (h.length + bytes.length) ≤ Storage.limit) :
    (h.append held bytes).storage.Granted := by
  rw [append]
  split
  · exact granted
  · exact granted_edit (· ++ bytes) (by rwa [List.length_append, length_content])

private theorem granted_replaceByte (granted : h.storage.Granted) (before after : UInt8) :
    (h.replaceByte held before after).storage.Granted := by
  rw [replaceByte]
  split
  · exact granted_edit_of_le granted _ (Nat.le_of_eq (by rw [List.length_map, length_content]))
  · exact granted

private theorem granted_fill (granted : h.storage.Granted) (b : UInt8) {length? : Option Nat}
    (had : ∀ n ∈ length?, h.length < n → h.roomFor held n n ≤ Storage.limit) : (h.fill held b length?).storage.Granted := by
  have filled (s : Handle) (sound : s.storage.Granted) :
      (if s.isEmpty then s else s.edit held s.length fun bytes => List.replicate bytes.length b).storage.Granted := by
    split
    · exact sound
    · exact granted_edit_of_le sound _ (Nat.le_of_eq (by rw [List.length_replicate, length_content]))
  cases length? with
  | none => exact filled h granted
  | some n => exact filled _ (granted_resizeWith granted 0 (had n rfl))

private theorem granted_set (granted : h.storage.Granted) {index : Nat} (b : UInt8)
    (had : h.length ≤ index ∧ index < Word.maxValue → h.roomFor held (index + 1) (index + 1) ≤ Storage.limit) :
    (h.set held index b).storage.Granted := by
  have written (s : Handle) (sound : s.storage.Granted) :
      (s.edit held s.length fun bytes => bytes.set index b).storage.Granted :=
    granted_edit_of_le sound _ (Nat.le_of_eq (by rw [List.length_set, length_content]))
  rw [set]
  split
  · exact granted
  · next near =>
    dsimp only
    split
    · next beyond => exact written _ (granted_resizeWith granted 0 fun _ => had ⟨beyond, Nat.lt_of_not_le near⟩)
    · exact written h granted

private theorem granted_copyUnless (granted : h.storage.Granted) {same : Bool} {bytes : List UInt8}
    (few : bytes.length ≤ Storage.limit) : (h.copyUnless held same bytes).storage.Granted := by
  rw [copyUnless]
  split
  · exact granted
  · exact granted_ofList few

/-- A copy with as many bytes as there are. -/
private theorem granted_copyUnless_map (granted : h.storage.Granted) (same : Bool) (f : UInt8 → UInt8) :
    (h.copyUnless held same (h.content.map f)).storage.Granted := by
  refine granted_copyUnless granted ?_
  rw [List.length_map, length_content]
  exact length_le_limit granted

/-- A text operation on every byte, in place or not. -/
private theorem granted_into_map (granted : h.storage.Granted) (same : Bool) (f : UInt8 → UInt8) :
    (if h.isDetached held then h.edit held h.length (List.map f)
      else h.copyUnless held same (h.content.map f)).storage.Granted := by
  split
  · exact granted_edit_of_le granted _ (Nat.le_of_eq (by rw [List.length_map, length_content]))
  · exact granted_copyUnless_map granted same f

private theorem granted_intoTrimmed (granted : h.storage.Granted) : (h.intoTrimmed held).storage.Granted := by
  rw [intoTrimmed]
  split
  · refine granted_edit_of_le granted _ ?_
    rw [← length_content]
    exact Text.Spacing.length_trim_le _
  · exact granted_of_placed granted fun held => placed_mid ..

private theorem granted_simplified (granted : h.storage.Granted) : (h.simplified held).storage.Granted := by
  have few := Text.Spacing.length_simplify_le h.content
  have small := length_le_limit granted
  rw [length_content] at few
  rw [simplified]
  split
  · exact granted
  · dsimp only
    split
    · trivial
    · exact granted_allocate (by omega)

private theorem granted_intoSimplified (granted : h.storage.Granted) : (h.intoSimplified held).storage.Granted := by
  rw [intoSimplified]
  split
  · exact granted_simplified granted
  · split
    · exact granted
    · refine granted_edit_of_le granted _ ?_
      rw [← length_content]
      exact Text.Spacing.length_simplify_le _

/-- Whatever a change asks for being had, it leaves a storage as it can be had. -/
private theorem Change.apply_granted (granted : h.storage.Granted) (change : Change)
    (had : change.need held h ≤ Storage.limit) :
    (Broken.after (change.apply held h)).storage.Granted := by
  cases change with
  | replace place n after => exact granted_replace granted had
  | replaceAll before after => exact granted_replaceAll granted had
  | resize n b => exact granted_resizeWith granted b fun grows => by rwa [need, if_pos grows] at had
  | fill b length? =>
    refine granted_fill granted b fun n given grows => ?_
    cases given
    rwa [need, if_pos grows] at had
  | set index b => exact granted_set granted b fun beyond => by rwa [need, if_pos beyond] at had
  | reserve capacity => exact granted_reserve granted had
  | squeeze => exact granted_squeeze granted
  | truncate n => exact granted_truncate granted n
  | chop n => exact granted_truncate granted _
  | clear => trivial
  | append bytes => exact granted_append granted had
  | extend bytes => exact granted_edit (· ++ bytes) (by rwa [List.length_append, length_content])
  | push b => exact granted_edit (· ++ [b]) (by rwa [List.length_append, length_content])
  | prepend bytes => exact granted_insert granted had
  | insert place bytes => exact granted_insert granted had
  | remove place n => exact granted_remove granted place n
  | replaceByte before after => exact granted_replaceByte granted before after
  | lower => exact granted_into_map granted _ Byte.toLower
  | upper => exact granted_into_map granted _ Byte.toUpper
  | trim => exact granted_intoTrimmed granted
  | simplify => exact granted_intoSimplified granted
  | detach => exact granted_edit_of_le granted id (Nat.le_of_eq (length_content h))
  | store place bytes => exact granted_store granted place bytes
  | reverse => exact granted_edit_of_le granted _ (Nat.le_of_eq (by rw [List.length_reverse, length_content]))

private theorem Change.attempt_granted (granted : h.storage.Granted) (change : Change) :
    (Broken.after (change.attempt held h)).storage.Granted := by
  rw [attempt]
  split
  · next had => exact change.apply_granted granted had
  · cases change with
    | replace place n after => exact granted_remove granted place n
    | _ => exact granted

/-! Actions -/

private theorem Origin.make_granted (origin : Origin) (had : origin.need ≤ Storage.limit) :
    (origin.make held).storage.Granted := by
  cases origin with
  | nothing => trivial
  | copied bytes => exact granted_ofList had
  | fixed bytes =>
    show bytes.length ≤ Storage.limit
    exact had
  | filled n b => exact granted_ofList (by rwa [List.length_replicate])
  | room capacity =>
    rw [make, withCapacity]
    split
    · trivial
    · exact granted_allocate (Nat.max_le.mpr ⟨had, Nat.zero_le _⟩)

private theorem granted_repeated (granted : h.storage.Granted) (had : n * h.length ≤ Storage.limit) :
    (h.repeated held n).storage.Granted := by
  rw [repeated]
  split
  · exact granted
  · split
    · trivial
    · refine granted_ofList ?_
      rwa [List.length_flatten, List.map_replicate, List.sum_replicate_nat, length_content]

private theorem Derivation.make_granted (granted : h.storage.Granted) (derivation : Derivation)
    (had : derivation.need held h ≤ Storage.limit) (made : derivation.make held h = .ok g) : g.storage.Granted := by
  cases derivation with
  | slice first last =>
    simp only [make, Handle.slice, bind, Except.bind] at made
    split at made
    · cases made
    · split at made
      · cases made
      · split at made
        · cases made
          exact granted_of_placed granted fun held => placed_view held h _ _ _
        · cases made
  | clone => cases made; exact granted
  | lower => cases made; exact granted_copyUnless_map granted _ Byte.toLower
  | upper => cases made; exact granted_copyUnless_map granted _ Byte.toUpper
  | simplified => cases made; exact granted_simplified granted
  | repeated n => cases made; exact granted_repeated granted had
  | plus bytes => cases made; exact granted_append granted had
  | mid place n? => cases made; exact granted_of_placed granted fun held => placed_mid held h place n?
  | trimmed => cases made; exact granted_of_placed granted fun held => placed_mid ..
  | left n => cases made; exact granted_of_placed granted fun held => placed_left held h n
  | right n => cases made; exact granted_of_placed granted fun held => placed_right held h n
  | chopped n => cases made; exact granted_of_placed granted fun held => placed_left held h _

namespace Table

variable {t : Table} {name : String} {action : Action}

/-- All handles under a name lie on storage as it can be had. -/
def Granted (t : Table) : Prop := ∀ name h, t.find? name = some h → h.storage.Granted

private theorem granted_empty : Table.empty.Granted := nofun

private theorem Granted.put (all : t.Granted) (name : String) (granted : h.storage.Granted) :
    (t.put name h).Granted := by
  intro other o found
  by_cases same : other = name
  · subst same
    rw [find?_put_self] at found
    cases found
    exact granted
  · exact all other o (by rwa [find?_put_of_ne t h same] at found)

private theorem Granted.drop (all : t.Granted) (name : String) : (t.drop name).Granted := by
  intro other o found
  by_cases same : other = name
  · subst same
    rw [find?_drop_self] at found
    cases found
  · exact all other o (by rwa [find?_drop_of_ne t same] at found)

private theorem Granted.putPieces (all : t.Granted) (name : String) (pieces : List Handle)
    (granted : ∀ piece ∈ pieces, piece.storage.Granted) : (t.putPieces name pieces).Granted := by
  rw [Table.putPieces]
  have granted : ∀ p ∈ pieces.zipIdx, p.1.storage.Granted := fun p member => granted p.1 (List.fst_mem_of_mem_zipIdx member)
  generalize pieces.zipIdx = numbered at granted
  induction numbered generalizing t with
  | nil => exact all
  | cons p rest ih =>
    rw [List.forall_mem_cons] at granted
    exact ih (all.put _ granted.1) granted.2

private theorem step_granted (all : t.Granted) (other : ∀ name change, action ≠ .change name change)
    (had : t.need action ≤ Storage.limit) : (Broken.after (t.step action)).Granted := by
  cases action with
  | make name origin => exact all.put name (origin.make_granted had)
  | derive name source derivation =>
    rw [step, stepBeside]
    cases found : t.find? source with
    | none => exact all
    | some h =>
      simp only [need, found, Option.elim_some] at had
      dsimp only [List.nil_append]
      cases made : derivation.make t.held h with
      | error => exact all
      | ok g => exact all.put name (derivation.make_granted (all source h found) had made)
  | change name change => exact absurd rfl (other name change)
  | appendShared name source =>
    rw [step, stepBeside]
    cases found : t.find? name with
    | none => exact all
    | some h =>
      cases given : t.find? source with
      | none => exact all
      | some g =>
        refine all.put name ?_
        dsimp only [List.nil_append]
        rw [appendShared]
        split
        · exact all source g given
        · next kept =>
          simp only [need, found, given, if_neg kept] at had
          exact granted_append (all name h found) (by rwa [length_content])
  | splitOff name source place =>
    rw [step, stepBeside]
    cases found : t.find? source with
    | none => exact all
    | some h =>
      dsimp only
      rw [Handle.splitOff]
      split
      · next parted =>
        split at parted
        · cases parted
          have cut : (h.keepFirst place ‹_›).storage.Granted := all source h found
          exact (all.put source cut).put name
            (granted_of_placed (all source h found) fun held => placed_view held h _ _ _)
        · cases parted
      · exact all
  | splitTo name source place =>
    rw [step, stepBeside]
    cases found : t.find? source with
    | none => exact all
    | some h =>
      dsimp only
      rw [Handle.splitTo]
      split
      · next parted =>
        split at parted
        · cases parted
          have cut : (h.dropFirst place ‹_›).storage.Granted := all source h found
          exact (all.put source cut).put name
            (granted_of_placed (all source h found) fun held => placed_view held h _ _ _)
        · cases parted
      · exact all
  | split name separator =>
    rw [step, stepBeside]
    cases found : t.find? name with
    | none => exact all
    | some h =>
      exact all.putPieces name _ fun piece member =>
        granted_of_placed (all name h found) fun held => placed_splitFrom held h separator 0 piece member
  | drop name => exact all.drop name

/-- Every action leaves all storages as they can be had. -/
private theorem attempt_granted (all : t.Granted) (action : Action) : (Broken.after (t.attempt action)).Granted := by
  have plain (other : ∀ name change, action ≠ .change name change) :
      (Broken.after (if t.need action ≤ Storage.limit then t.step action else .error ⟨.tooLarge, t⟩)).Granted := by
    split
    · next had => exact step_granted all other had
    · exact all
  cases action with
  | change name change =>
    rw [attempt]
    cases found : t.find? name with
    | none => exact all
    | some h =>
      dsimp only
      rw [after_putBroken]
      exact all.put name (change.attempt_granted (all name h found))
  | make | derive | appendShared | splitOff | splitTo | split | drop => exact plain (by simp)

private theorem Granted.foldl (all : t.Granted) (actions : List Action) :
    (actions.foldl (fun t action => Broken.after (t.attempt action)) t).Granted := by
  induction actions generalizing t with
  | nil => exact all
  | cons action actions ih => exact ih (attempt_granted all action)

/-- Whatever actions are attempted one after another, no storage ever exceeds the limit, and all bytes lie in the room of
theirs. -/
theorem attempts_granted (actions : List Action) :
    (actions.foldl (fun t action => Broken.after (t.attempt action)) Table.empty).Granted := granted_empty.foldl actions

end Table

end Handle

end ByteFlow
