import ByteFlow.Proofs.Handle.Caller
import ByteFlow.Proofs.Handle.Replacement

/-! Which operations part a handle from those it shares storage with.
A change that stores bytes leaves the handle alone on its storage. One that only narrows the view, or finds nothing
to do, leaves it where it is; and a view with something to see is on the storage it was taken of. -/
namespace ByteFlow

namespace Search

/-- A pattern stands somewhere in a text if it is a part of it. -/
theorem exists_occursAt_iff {pattern text : List UInt8} : (∃ place, OccursAt pattern text place) ↔ pattern <:+: text := by
  constructor
  · rintro ⟨place, -, here⟩
    refine ⟨text.take place, (text.drop place).drop pattern.length, ?_⟩
    conv_lhs => enter [1, 2]; rw [← here]
    rw [List.append_assoc, List.take_append_drop, List.take_append_drop]
  · rintro ⟨before, after, rfl⟩
    refine ⟨before.length, by simp, ?_⟩
    rw [List.append_assoc, List.drop_left, List.take_left]

/-- There is something to replace exactly if the pattern is a part of the text and not empty. -/
theorem replaceAll?_eq_none_iff {text before : List UInt8} (after : List UInt8) :
    replaceAll? text before after = none ↔ ¬ (before ≠ [] ∧ before <:+: text) := by
  rw [replaceAll?]
  by_cases none : before = []
  · simp [none]
  · by_cases short : text.length < before.length
    · have missing : ¬ before <:+: text := fun part => absurd part.length_le (by omega)
      simp [short, missing]
    · have nonempty : before.isEmpty = false := by simpa using none
      simp only [nonempty, short, decide_false, Bool.or_self, Bool.false_eq_true, if_false, Option.map_eq_none_iff,
        Matcher.indexIn_ofPattern, firstFrom?_eq_none_iff, ← exists_occursAt_iff]
      simp [none]

end Search

namespace Handle

variable {held : List StorageId} {h g r : Handle} {place n : Nat} {bytes after : List UInt8}

/-- What lies where a handle was whatever others hold, and is to be seen, is on the storage of that handle. -/
private theorem storage_of_placed (placed : ∀ held, Placed held h.storage g.storage) (some : 0 < g.length) :
    g.storage = h.storage := by
  have inside := g.inside
  generalize h.storage = old at placed
  cases stored : g.storage with
  | absent =>
    simp only [stored, Storage.bytes, List.length_nil] at inside
    omega
  | fixed id bytes =>
    rw [stored] at placed
    cases placed [] with
    | same => rfl
  | heap id bytes capacity =>
    rw [stored] at placed
    cases placed [id] with
    | same => rfl
    | own _ _ _ free => exact absurd (List.mem_singleton_self id) free

/-- The derivations that copy nothing. -/
def Derivation.IsView : Derivation → Prop
  | clone | slice _ _ | left _ | right _ | chopped _ | mid _ _ | trimmed => True
  | lower | upper | simplified | repeated _ | plus _ => False

private theorem Derivation.IsView.storage {derivation : Derivation} (view : derivation.IsView)
    (made : derivation.make held h = .ok g) (some : 0 < g.length) : g.storage = h.storage := by
  have anywhere : ∀ held, derivation.make held h = .ok g := by
    intro more
    cases derivation with
    | clone | slice | left | right | chopped | mid | trimmed => exact made
    | lower | upper | simplified | repeated | plus => exact view.elim
  exact storage_of_placed (fun more => derivation.placed more h (anywhere more)) some

private theorem storage_of_mem_split {separator : UInt8} {piece : Handle} (member : piece ∈ h.split separator)
    (some : 0 < piece.length) : piece.storage = h.storage :=
  storage_of_placed (fun held => placed_splitFrom held h separator 0 piece member) some

/-! Alone on a storage -/

/-- The handle keeps its bytes nowhere, or on the heap where nobody else looks. -/
def Alone (held : List StorageId) (h : Handle) : Prop := Placed held .absent h.storage

private theorem alone_empty : Alone held empty := .absent

private theorem alone_of_isDetached (detached : h.isDetached held = true) : Alone held h := by
  obtain ⟨id, bytes, capacity, stored, -, free⟩ := isDetached_iff.mp detached
  rw [Alone, stored]
  exact .own id bytes capacity free

private theorem alone_edit (room : Nat) (f : List UInt8 → List UInt8) :
    Alone held (h.edit held room f) := placed_edit ..

private theorem alone_withRoom (capacity : Nat) (alone : Alone held h) : Alone held (h.withRoom capacity) := by
  rw [withRoom]
  split
  · next id bytes old same =>
    rw [Alone, same] at alone
    cases alone with
    | own _ _ _ free => exact .own id bytes _ free
  · exact alone

private theorem alone_resizeWith (b : UInt8) (grows : h.length < n) : Alone held (h.resizeWith held n b) := by
  rw [resizeWith, dif_neg (by omega), if_neg (by omega)]
  exact alone_edit ..

private theorem alone_reserve {capacity : Nat} (some : 0 < capacity) : Alone held (h.reserve held capacity) := by
  unfold reserve
  dsimp only
  split
  · next ready =>
    have detached := (ready.resolve_left (Nat.ne_of_gt some)).1
    exact alone_of_isDetached detached
  · exact alone_withRoom capacity (alone_edit ..)

private theorem alone_append (some : bytes ≠ []) : Alone held (h.append held bytes) := by
  rw [append, if_neg (by simpa using some)]
  exact alone_edit ..

theorem appendShared_of_kept (kept : 0 < h.length ∨ h.reserved = true) : h.appendShared held g = h.append held g.content := by
  rw [appendShared, if_neg]
  rintro ⟨none, plain⟩
  rcases kept with long | reserved
  · exact Nat.ne_of_gt long (by simpa [isEmpty] using none)
  · simp [reserved] at plain

private theorem alone_appendShared (some : 0 < g.length) (kept : 0 < h.length ∨ h.reserved = true) :
    Alone held (h.appendShared held g) := by
  rw [appendShared_of_kept kept]
  exact alone_append fun none => Nat.ne_of_gt some ((content_eq_nil_iff g).mp none)

private theorem alone_insert (some : bytes ≠ []) (fits : max place h.length + bytes.length ≤ Word.maxValue) :
    Alone held (h.insert held place bytes) := by
  rw [insert, if_neg (by simpa using some), Word.add?, if_pos fits]
  exact alone_edit ..

private theorem alone_remove (before : 0 < place) (some : 0 < n) (behind : place + n < h.length) :
    Alone held (h.remove held place n) := by
  unfold remove
  rw [if_neg (by omega)]
  dsimp only
  rw [if_neg (by omega), if_neg (by omega)]
  exact alone_edit ..

theorem length_remove (held : List StorageId) (place n : Nat) (h : Handle) :
    (h.remove held place n).length = (removed place n h.content).length := by
  rw [← length_content, content_remove]

private theorem alone_replace (writes : (0 < place ∧ 0 < n ∧ place + n < h.length) ∨
      after ≠ [] ∧ ((n = after.length ∧ place + n ≤ h.length) ∨
        max place (removed place n h.content).length + after.length ≤ Word.maxValue)) :
    ∃ r, h.replace held place n after = .ok r ∧ Alone held r := by
  have last : Word.maxValue < Word.modulus := Word.maxValue_lt_modulus
  rw [replace]
  split
  · next overlay =>
    obtain ⟨same, inside⟩ := overlay
    have placed : n ≠ 0 ∧ place + n ≤ h.length := by
      rcases writes with ⟨-, some, behind⟩ | ⟨some, ⟨-, fits⟩ | fits⟩
      · exact ⟨by omega, by omega⟩
      · exact ⟨fun none => some (List.length_eq_zero_iff.mp (same.symm.trans none)), fits⟩
      · rw [Word.addWrapped_of_lt (by omega)] at inside
        exact ⟨fun none => some (List.length_eq_zero_iff.mp (same.symm.trans none)), inside⟩
    rw [if_neg placed.1, if_pos placed.2]
    exact ⟨_, rfl, alone_edit ..⟩
  · next beside =>
    refine ⟨_, rfl, ?_⟩
    rcases writes with ⟨before, some, behind⟩ | ⟨some, ⟨same, inside⟩ | fits⟩
    · exact (alone_remove before some behind).trans (placed_insert ..)
    · exact absurd ⟨same, Nat.le_trans (Nat.mod_le _ _) inside⟩ beside
    · exact alone_insert some (by rwa [length_remove])

private theorem alone_replaceAll (some : bytes ≠ []) (part : bytes <:+: h.content) :
    Alone held (h.replaceAll held bytes after) := by
  rw [replaceAll]
  split
  · next idle => exact absurd ⟨some, part⟩ ((Search.replaceAll?_eq_none_iff after).mp idle)
  · split
    · exact alone_empty
    · exact placed_allocate held _ _ fun _ => mem_id_append held h

private theorem alone_replaceByte {b c : UInt8} (differs : b ≠ c) (member : b ∈ h.content) :
    Alone held (h.replaceByte held b c) := by
  rw [replaceByte, if_pos ⟨differs, by simpa using member⟩]
  exact alone_edit ..

private theorem alone_fill (b : UInt8) {length? : Option Nat} (some : 0 < length?.getD h.length) :
    Alone held (h.fill held b length?) := by
  have sized : ∀ s : Handle, 0 < s.length →
      Alone held (if s.isEmpty then s else s.edit held s.length fun bytes => List.replicate bytes.length b) := by
    intro s long
    rw [if_neg (by simpa [isEmpty] using Nat.ne_of_gt long)]
    exact alone_edit ..
  unfold fill
  cases length? with
  | none => exact sized h some
  | some n => exact sized _ (by simpa using some)

private theorem alone_set {index : Nat} (b : UInt8) (inside : index < Word.maxValue) :
    Alone held (h.set held index b) := by
  rw [set, if_neg (Nat.not_le.mpr inside)]
  exact alone_edit ..

private theorem alone_copyUnless (bytes : List UInt8) : Alone held (h.copyUnless held false bytes) :=
  placed_ofList held bytes fun _ => mem_id_append held h

/-- A text operation that uses the handle up and has something to change. -/
private theorem alone_into {same : Bool} {f : List UInt8 → List UInt8} (changes : same = false) :
    Alone held (if h.isDetached held then h.edit held h.length f else h.copyUnless held same bytes) := by
  split
  · exact alone_edit ..
  · rw [changes]
    exact alone_copyUnless bytes

private theorem alone_intoSimplified (changes : Text.Spacing.isSimplified h.content = false) :
    Alone held (h.intoSimplified held) := by
  unfold intoSimplified simplified
  rw [changes]
  dsimp only
  split
  · rw [if_neg Bool.false_ne_true]
    split
    · exact alone_empty
    · exact placed_allocate held _ _ fun _ => mem_id_append held h
  · exact alone_edit ..

/-! Where it was -/

/-- Cutting a handle down to `n` bytes leaves it on its storage, be it that something is still to be seen, that nothing
was, or that its room is reserved. -/
def KeptAt (h : Handle) (n : Nat) : Prop := 0 < n ∨ h.length = 0 ∨ h.reserved = true

theorem storage_resizeWith (b : UInt8) (shrinks : n ≤ h.length) (kept : h.KeptAt n) :
    (h.resizeWith held n b).storage = h.storage := by
  rw [resizeWith]
  split
  · next smaller =>
    have stays : ¬ (n = 0 ∧ (!h.reserved) = true) := by
      rintro ⟨rfl, plain⟩
      rcases kept with long | none | reserved
      · exact Nat.lt_irrefl 0 long
      · omega
      · simp [reserved] at plain
    rw [if_neg stays]
    rfl
  · rw [if_pos (by omega)]

theorem storage_truncate (kept : h.KeptAt n) : (h.truncate held n).storage = h.storage := by
  rw [truncate]
  split
  · next smaller => exact storage_resizeWith 0 (by omega) kept
  · rfl

/-- Taking bytes out at either end only narrows the view. -/
theorem storage_remove (edge : ¬ (0 < place ∧ 0 < n ∧ place + n < h.length)) (kept : n < h.length ∨ h.KeptAt place) :
    (h.remove held place n).storage = h.storage := by
  unfold remove
  split
  · rfl
  · dsimp only
    split
    · refine storage_resizeWith 0 (by omega) ?_
      rcases kept with short | kept
      · exact .inl (by omega)
      · exact kept
    · rw [if_pos (by omega)]
      rfl

private theorem replace_nil_storage (held : List StorageId) (edge : ¬ (0 < place ∧ 0 < n ∧ place + n < h.length))
    (kept : n < h.length ∨ h.KeptAt place) :
    ∃ r, h.replace held place n [] = .ok r ∧ r.storage = h.storage := by
  rw [replace]
  split
  · next overlay =>
    have none : n = 0 := overlay.1
    rw [if_pos none]
    exact ⟨h, rfl, rfl⟩
  · exact ⟨_, rfl, storage_remove edge kept⟩

private theorem appendShared_eq_self (none : g.length = 0) (kept : 0 < h.length ∨ h.reserved = true) :
    h.appendShared held g = h := by
  rw [appendShared_of_kept kept, (content_eq_nil_iff g).mpr none]
  rfl

theorem replaceAll_eq_self (missing : ¬ (bytes ≠ [] ∧ bytes <:+: h.content)) : h.replaceAll held bytes after = h := by
  rw [replaceAll, (Search.replaceAll?_eq_none_iff after).mpr missing]

private theorem replaceByte_eq_self {b c : UInt8} (idle : b = c ∨ b ∉ h.content) : h.replaceByte held b c = h := by
  rw [replaceByte, if_neg]
  rintro ⟨differs, member⟩
  rcases idle with same | missing
  · exact differs same
  · exact missing (by simpa using member)

private theorem storage_fill (b : UInt8) {length? : Option Nat} (none : length?.getD h.length = 0) (kept : h.KeptAt 0) :
    (h.fill held b length?).storage = h.storage := by
  have sized : ∀ s : Handle, s.length = 0 →
      (if s.isEmpty then s else s.edit held s.length fun bytes => List.replicate bytes.length b).storage = s.storage := by
    intro s nothing
    rw [if_pos (by simpa [isEmpty] using nothing)]
  unfold fill
  cases length? with
  | none => exact sized h none
  | some n =>
    obtain rfl : n = 0 := none
    exact (sized _ (length_resize ..)).trans (storage_resizeWith 0 (Nat.zero_le _) kept)

/-- Handles that share with the same others. -/
def SharesAlike (h r : Handle) : Prop := ∀ g, r.sharesWith g = h.sharesWith g

private theorem SharesAlike.of_storage (same : r.storage = h.storage) : SharesAlike h r := by
  intro g
  rw [sharesWith, sharesWith, same]

/-- A write in place leaves the handle where it is. -/
private theorem sharesAlike_edit (room : Nat) (f : List UInt8 → List UInt8) (detached : h.isDetached held = true) :
    SharesAlike h (h.edit held room f) := by
  intro g
  obtain ⟨id, bytes, capacity, stored, -, -⟩ := isDetached_iff.mp detached
  have written : (h.edit held room f).storage = .heap id (f h.content) (h.roomFor held room (f h.content).length) := by
    simp only [edit, whole, ownId, stored, detached, if_true]
  unfold sharesWith
  rw [written, stored]
  cases g.storage <;> rfl

private theorem sharesAlike_squeeze (kept : 0 < h.length ∨ h.reserved = true) : SharesAlike h (h.squeeze held) := by
  rw [squeeze]
  split
  · exact .of_storage rfl
  · next plain =>
    have long : h.length ≠ 0 := Nat.ne_of_gt (kept.resolve_right plain)
    rw [if_neg long]
    split
    · next id bytes capacity stored =>
      split
      · intro g
        unfold sharesWith
        rw [stored, whole]
        cases g.storage <;> rfl
      · exact .of_storage rfl
    · exact .of_storage rfl

private theorem sharesAlike_intoTrimmed (some : Text.Spacing.trim h.content ≠ []) :
    SharesAlike h (h.intoTrimmed held) := by
  rw [intoTrimmed]
  split
  · next detached => exact sharesAlike_edit _ _ detached
  · have seen : 0 < h.trimmed.length := by
      rw [← length_content, content_trimmed]
      exact List.length_pos_of_ne_nil some
    have view : Derivation.trimmed.IsView := trivial
    have made : Derivation.trimmed.make held h = .ok h.trimmed := rfl
    exact .of_storage (view.storage made seen)

private theorem sharesAlike_into {same : Bool} {f : List UInt8 → List UInt8} (idle : same = true) :
    SharesAlike h (if h.isDetached held then h.edit held h.length f else h.copyUnless held same bytes) := by
  split
  · next detached => exact sharesAlike_edit _ _ detached
  · rw [idle]
    exact .of_storage rfl

theorem intoSimplified_eq_self (idle : Text.Spacing.isSimplified h.content = true) : h.intoSimplified held = h := by
  rw [intoSimplified]
  split
  · rw [simplified, if_pos idle]
  · rfl

/-! Changes -/

/-- A change that stores bytes, or asks for a storage of the handle's own. -/
def Change.Writes (h : Handle) : Change → Prop
  | resize n _ => h.length < n
  | reserve capacity => 0 < capacity
  | append bytes => bytes ≠ []
  | prepend bytes => bytes ≠ [] ∧ h.length + bytes.length ≤ Word.maxValue
  | insert place bytes => bytes ≠ [] ∧ max place h.length + bytes.length ≤ Word.maxValue
  | remove place n => 0 < place ∧ 0 < n ∧ place + n < h.length
  | replace place n after =>
    (0 < place ∧ 0 < n ∧ place + n < h.length) ∨
      after ≠ [] ∧ ((n = after.length ∧ place + n ≤ h.length) ∨
        max place (removed place n h.content).length + after.length ≤ Word.maxValue)
  | replaceAll before _ => before ≠ [] ∧ before <:+: h.content
  | replaceByte before after => before ≠ after ∧ before ∈ h.content
  | fill _ length? => 0 < length?.getD h.length
  | set index _ => index < Word.maxValue
  | lower => h.isLower = false
  | upper => h.isUpper = false
  | simplify => Text.Spacing.isSimplified h.content = false
  | detach | push _ | extend _ | store _ _ | reverse => True
  | squeeze | truncate _ | chop _ | clear | trim => False

/-- A change that only narrows the view of a handle to something, or finds nothing to do. -/
def Change.Spares (h : Handle) : Change → Prop
  | resize n _ => n ≤ h.length ∧ h.KeptAt n
  | truncate n => h.KeptAt n
  | chop n => h.KeptAt (h.length - n)
  | reserve capacity => capacity = 0
  | squeeze => 0 < h.length ∨ h.reserved = true
  | append bytes => bytes = []
  | prepend bytes => bytes = [] ∨ Word.maxValue < h.length + bytes.length
  | insert place bytes => bytes = [] ∨ Word.maxValue < max place h.length + bytes.length
  | remove place n => ¬ (0 < place ∧ 0 < n ∧ place + n < h.length) ∧ (n < h.length ∨ h.KeptAt place)
  | replace place n after =>
    after = [] ∧ ¬ (0 < place ∧ 0 < n ∧ place + n < h.length) ∧ (n < h.length ∨ h.KeptAt place)
  | replaceAll before _ => ¬ (before ≠ [] ∧ before <:+: h.content)
  | replaceByte before after => before = after ∨ before ∉ h.content
  | fill _ length? => length?.getD h.length = 0 ∧ h.KeptAt 0
  | set index _ => Word.maxValue ≤ index
  | lower => h.isLower = true
  | upper => h.isUpper = true
  | trim => Text.Spacing.trim h.content ≠ []
  | simplify => Text.Spacing.isSimplified h.content = true
  | clear | detach | push _ | extend _ | store _ _ | reverse => False

private theorem Change.Writes.alone (held : List StorageId) {change : Change} (writes : change.Writes h) :
    ∃ r, change.apply held h = .ok r ∧ Alone held r := by
  cases change with
  | resize n b => exact ⟨_, rfl, alone_resizeWith b writes⟩
  | reserve capacity => exact ⟨_, rfl, alone_reserve writes⟩
  | append bytes => exact ⟨_, rfl, alone_append writes⟩
  | prepend bytes => exact ⟨_, rfl, alone_insert writes.1 (by simpa using writes.2)⟩
  | insert place bytes => exact ⟨_, rfl, alone_insert writes.1 writes.2⟩
  | remove place n => exact ⟨_, rfl, alone_remove writes.1 writes.2.1 writes.2.2⟩
  | replace place n after => exact alone_replace writes
  | replaceAll before after => exact ⟨_, rfl, alone_replaceAll writes.1 writes.2⟩
  | replaceByte before after => exact ⟨_, rfl, alone_replaceByte writes.1 writes.2⟩
  | fill b length? => exact ⟨_, rfl, alone_fill b writes⟩
  | set index b => exact ⟨_, rfl, alone_set b writes⟩
  | lower => exact ⟨_, rfl, alone_into writes⟩
  | upper => exact ⟨_, rfl, alone_into writes⟩
  | simplify => exact ⟨_, rfl, alone_intoSimplified writes⟩
  | detach | push | extend | store | reverse => exact ⟨_, rfl, alone_edit ..⟩
  | squeeze | truncate | chop | clear | trim => exact writes.elim

private theorem Change.Spares.sharesAlike (held : List StorageId) {change : Change} (spares : change.Spares h) :
    ∃ r, change.apply held h = .ok r ∧ SharesAlike h r := by
  cases change with
  | resize n b => exact ⟨_, rfl, .of_storage (storage_resizeWith b spares.1 spares.2)⟩
  | truncate n => exact ⟨_, rfl, .of_storage (storage_truncate spares)⟩
  | chop n => exact ⟨_, rfl, .of_storage (storage_truncate spares)⟩
  | reserve capacity =>
    refine ⟨_, rfl, .of_storage ?_⟩
    rw [Handle.reserve, if_pos (.inl spares)]
  | squeeze => exact ⟨_, rfl, sharesAlike_squeeze spares⟩
  | append bytes =>
    obtain rfl : bytes = [] := spares
    exact ⟨_, rfl, .of_storage rfl⟩
  | prepend bytes =>
    have nothing : bytes = [] ∨ Word.maxValue < h.length + bytes.length := spares
    exact ⟨_, rfl, .of_storage (congrArg storage (insert_eq_self (by simpa using nothing)))⟩
  | insert place bytes => exact ⟨_, rfl, .of_storage (congrArg storage (insert_eq_self spares))⟩
  | remove place n => exact ⟨_, rfl, .of_storage (storage_remove spares.1 spares.2)⟩
  | replace place n after =>
    obtain ⟨rfl, edge, kept⟩ := spares
    obtain ⟨r, done, same⟩ := replace_nil_storage held edge kept
    exact ⟨r, done, .of_storage same⟩
  | replaceAll before after => exact ⟨_, rfl, .of_storage (congrArg storage (replaceAll_eq_self spares))⟩
  | replaceByte before after => exact ⟨_, rfl, .of_storage (congrArg storage (replaceByte_eq_self spares))⟩
  | fill b length? => exact ⟨_, rfl, .of_storage (storage_fill b spares.1 spares.2)⟩
  | set index b =>
    have beyond : Word.maxValue ≤ index := spares
    refine ⟨_, rfl, .of_storage ?_⟩
    rw [Handle.set, if_pos beyond]
  | lower => exact ⟨_, rfl, sharesAlike_into spares⟩
  | upper => exact ⟨_, rfl, sharesAlike_into spares⟩
  | trim => exact ⟨_, rfl, sharesAlike_intoTrimmed spares⟩
  | simplify => exact ⟨_, rfl, .of_storage (congrArg storage (intoSimplified_eq_self spares))⟩
  | clear | detach | push | extend | store | reverse => exact spares.elim

/-! Names -/

namespace Table

variable {t : Table} {name other part : String}

/-- The handles under two names look at one storage. -/
def Shares (t : Table) (a b : String) : Prop :=
  ∃ h g, t.find? a = some h ∧ t.find? b = some g ∧ h.sharesWith g = true

private theorem shares_iff (found : t.find? name = some h) :
    t.Shares name other ↔ ∃ g, t.find? other = some g ∧ h.sharesWith g = true := by
  constructor
  · rintro ⟨h', g, found', there, shares⟩
    rw [found] at found'
    cases found'
    exact ⟨g, there, shares⟩
  · rintro ⟨g, there, shares⟩
    exact ⟨h, g, found, there, shares⟩

private theorem shares_put_iff (differs : other ≠ name) :
    (t.put name r).Shares name other ↔ ∃ g, t.find? other = some g ∧ r.sharesWith g = true := by
  rw [shares_iff (find?_put_self t name r), find?_put_of_ne t r differs]

/-- The handle under a name shares with no other. -/
def Unshared (t : Table) (name : String) : Prop := ∀ other, other ≠ name → ¬ t.Shares name other

/-- The handle under a name shares with the others that it shared with before. -/
def SharesAsIn (before t : Table) (name : String) : Prop :=
  ∀ other, other ≠ name → (t.Shares name other ↔ before.Shares name other)

private theorem unshared_put (alone : Alone (t.heldByOthers name) r) : (t.put name r).Unshared name := by
  intro other differs
  rw [shares_put_iff differs]
  rintro ⟨g, there, shares⟩
  rw [Placed.unshared alone fun id => mem_heldByOthers there differs] at shares
  cases shares

private theorem sharesAsIn_put (found : t.find? name = some h) (alike : SharesAlike h r) :
    SharesAsIn t (t.put name r) name := by
  intro other differs
  rw [shares_put_iff differs, shares_iff found]
  exact exists_congr fun g => and_congr_right fun _ => by rw [alike g]

theorem step_change {change : Change} (found : t.find? name = some h)
    (changed : change.apply (t.heldByOthers name) h = .ok r) : t.step (.change name change) = .ok (t.put name r) := by
  simp only [step, stepBeside, found, List.nil_append, changed]
  rfl

theorem step_appendShared {source : String} (found : t.find? name = some h) (given : t.find? source = some g) :
    t.step (.appendShared name source) = .ok (t.put name (h.appendShared (g.id?.toList ++ t.heldByOthers name) g)) := by
  simp only [step, stepBeside, found, given, List.nil_append]

/-- An action that stores bytes in the handle under a name. -/
inductive Writes (t : Table) (name : String) (h : Handle) : Action → Prop where
  | change {change : Change} (writes : change.Writes h) : Writes t name h (.change name change)
  | appendShared {source : String} {g : Handle} (given : t.find? source = some g) (some : 0 < g.length)
      (kept : 0 < h.length ∨ h.reserved = true) : Writes t name h (.appendShared name source)

/-- An action on the handle under a name that narrows its view or finds nothing to do. -/
inductive Spares (t : Table) (name : String) (h : Handle) : Action → Prop where
  | change {change : Change} (spares : change.Spares h) : Spares t name h (.change name change)
  | appendShared {source : String} {g : Handle} (given : t.find? source = some g) (none : g.length = 0)
      (kept : 0 < h.length ∨ h.reserved = true) : Spares t name h (.appendShared name source)

private theorem step_writes {action : Action} (found : t.find? name = some h) (writes : t.Writes name h action) :
    ∃ t', t.step action = .ok t' ∧ t'.Unshared name := by
  cases writes with
  | change writes =>
    obtain ⟨r, changed, alone⟩ := writes.alone (t.heldByOthers name)
    exact ⟨_, step_change found changed, unshared_put alone⟩
  | @appendShared source g given some kept =>
    have alone : Alone (t.heldByOthers name) (h.appendShared (g.id?.toList ++ t.heldByOthers name) g) :=
      Placed.mono (alone_appendShared some kept) fun id => mem_id_append _ g
    exact ⟨_, step_appendShared found given, unshared_put alone⟩

private theorem step_spares {action : Action} (found : t.find? name = some h) (spares : t.Spares name h action) :
    ∃ t', t.step action = .ok t' ∧ SharesAsIn t t' name := by
  cases spares with
  | change spares =>
    obtain ⟨r, changed, alike⟩ := spares.sharesAlike (t.heldByOthers name)
    exact ⟨_, step_change found changed, sharesAsIn_put found alike⟩
  | @appendShared source g given none kept =>
    have same : h.appendShared (g.id?.toList ++ t.heldByOthers name) g = h := appendShared_eq_self none kept
    exact ⟨_, step_appendShared found given, sharesAsIn_put found (.of_storage (congrArg storage same))⟩

/-- What is shared is a matter of storage alone. -/
private theorem sharesWith_congr {a b : Handle} (same : a.storage = b.storage) : g.sharesWith a = g.sharesWith b := by
  rw [sharesWith, sharesWith, same]

private theorem sharesWith_of_absent (h : Handle) (none : g.storage = .absent) : h.sharesWith g = false := by
  unfold sharesWith
  rw [none]
  cases h.storage <;> rfl

/-- The part cut off lies under a name of its own. -/
private theorem find?_parts (first second : Handle) (differs : part ≠ name) :
    ((t.put name second).put part first).find? name = some second := by
  rw [find?_put_of_ne _ _ differs.symm, find?_put_self]

/-- Both parts of a handle that is cut stay where it was, unless there is nothing to see. -/
private theorem shares_parts (first second : Handle) (found : t.find? name = some h) (differs : part ≠ name)
    (kept : second.storage = h.storage) (viewed : 0 < first.length → first.storage = h.storage)
    (blank : first.length = 0 → first.storage = .absent) :
    (∀ other, other ≠ name → other ≠ part →
        (((t.put name second).put part first).Shares name other ↔ t.Shares name other)) ∧
      (((t.put name second).put part first).Shares name part ↔ 0 < first.length) := by
  have here : ((t.put name second).put part first).find? name = some second := find?_parts first second differs
  refine ⟨fun other away apart => ?_, ?_⟩
  · rw [shares_iff here, find?_put_of_ne _ _ apart, find?_put_of_ne _ _ away, shares_iff found]
    exact exists_congr fun g => and_congr_right fun _ => by rw [SharesAlike.of_storage kept g]
  · rw [shares_iff here, find?_put_self]
    constructor
    · rintro ⟨g, same, shares⟩
      cases same
      by_contra none
      rw [sharesWith_of_absent second (blank (by omega))] at shares
      cases shares
    · intro some
      exact ⟨first, rfl, sharesWith_of_storage some (kept.trans (viewed some).symm)⟩

private theorem storage_view {offset length : Nat} (fits : offset + length ≤ h.length)
    (some : 0 < (h.view offset length fits).length) :
    (h.view offset length fits).storage = h.storage :=
  storage_of_placed (fun held => placed_view held h offset length fits) some

private theorem length_view {offset length : Nat} (fits : offset + length ≤ h.length) :
    (h.view offset length fits).length = length := by
  rw [← length_content, content_view, List.length_take, List.length_drop, length_content]
  omega

private theorem view_absent {offset length : Nat} (fits : offset + length ≤ h.length)
    (none : (h.view offset length fits).length = 0) :
    (h.view offset length fits).storage = .absent := by
  rw [length_view] at none
  rw [view, if_pos none]
  rfl

private theorem step_splitOff (found : t.find? name = some h) (differs : part ≠ name) {place : Nat}
    (inside : place ≤ h.length) :
    ∃ t', t.step (.splitOff part name place) = .ok t' ∧
      (∀ other, other ≠ name → other ≠ part → (t'.Shares name other ↔ t.Shares name other)) ∧
      (t'.Shares name part ↔ place < h.length) := by
  have fits : place + (h.length - place) ≤ h.length := by omega
  have parts := shares_parts (h.view place (h.length - place) fits) (h.keepFirst place inside)
    found differs rfl (storage_view fits) (view_absent fits)
  refine ⟨_, ?_, parts.1, parts.2.trans ?_⟩
  · simp only [step, stepBeside, found, Handle.splitOff, inside, dif_pos]
  · rw [length_view]
    omega

private theorem step_splitTo (found : t.find? name = some h) (differs : part ≠ name) {place : Nat}
    (inside : place ≤ h.length) :
    ∃ t', t.step (.splitTo part name place) = .ok t' ∧
      (∀ other, other ≠ name → other ≠ part → (t'.Shares name other ↔ t.Shares name other)) ∧
      (t'.Shares name part ↔ 0 < place) := by
  have fits : 0 + place ≤ h.length := by omega
  have parts := shares_parts (h.view 0 place fits) (h.dropFirst place inside)
    found differs rfl (storage_view fits) (view_absent fits)
  refine ⟨_, ?_, parts.1, parts.2.trans ?_⟩
  · simp only [step, stepBeside, found, Handle.splitTo, inside, dif_pos]
  · rw [length_view]

private theorem step_view {view : String} {derivation : Derivation} (found : t.find? name = some h)
    (differs : view ≠ name)
    (isView : derivation.IsView) (made : derivation.make t.held h = .ok g) :
    ∃ t', t.step (.derive view name derivation) = .ok t' ∧ t'.find? view = some g ∧
      (0 < g.length → t'.Shares view name) := by
  refine ⟨t.put view g, ?_, find?_put_self .., fun some => ?_⟩
  · simp only [step, stepBeside, found, List.nil_append, made]
  · rw [shares_put_iff differs.symm]
    refine ⟨h, found, ?_⟩
    rw [sharesWith_congr (isView.storage made some).symm]
    exact sharesWith_of_storage some rfl

private theorem numbered_inj {j k : Nat} : name ++ "." ++ toString j = name ++ "." ++ toString k ↔ j = k := by
  rw [String.append_right_inj]
  refine ⟨fun same => ?_, congrArg toString⟩
  have digits : Nat.toDigits 10 j = Nat.toDigits 10 k := String.ofList_inj.mp same
  rw [← @Nat.ofDigitChars_ten_toDigits j, digits, Nat.ofDigitChars_ten_toDigits]

private theorem ne_numbered (k : Nat) : name ≠ name ++ "." ++ toString k := by
  intro same
  have length := congrArg String.length same
  rw [String.length_append, String.length_append] at length
  have dot : ".".length = 1 := rfl
  omega

/-- The pieces lie under names of their own. -/
private theorem find?_putPieces_numbered (pieces : List Handle) (k : Nat) :
    (t.putPieces name pieces).find? (name ++ "." ++ toString k) =
      pieces[k]?.or (t.find? (name ++ "." ++ toString k)) := by
  -- The pieces still to be put are numbered from `start` on.
  have later : ∀ (rest : List Handle) (start : Nat) (t : Table),
      ((rest.zipIdx start).foldl (fun t p => t.put (name ++ "." ++ toString p.2) p.1) t).find? (name ++ "." ++ toString k) =
        (if start ≤ k then rest[k - start]? else none).or (t.find? (name ++ "." ++ toString k)) := by
    intro rest
    induction rest with
    | nil => intro start t; simp
    | cons piece rest ih =>
      intro start t
      rw [List.zipIdx_cons, List.foldl_cons, ih (start + 1)]
      rcases Nat.lt_trichotomy k start with before | here | behind
      · have differs : name ++ "." ++ toString k ≠ name ++ "." ++ toString start := fun same => by
          have := numbered_inj.mp same
          omega
        rw [find?_put_of_ne _ _ differs, if_neg (by omega), if_neg (by omega)]
      · subst here
        rw [find?_put_self, if_neg (Nat.not_succ_le_self k), if_pos (Nat.le_refl k), Nat.sub_self]
        rfl
      · have differs : name ++ "." ++ toString k ≠ name ++ "." ++ toString start := fun same => by
          have := numbered_inj.mp same
          omega
        rw [find?_put_of_ne _ _ differs, if_pos (by omega), if_pos (by omega),
          show k - start = k - (start + 1) + 1 by omega, List.getElem?_cons_succ]
  have all := later pieces 0 t
  rwa [if_pos (Nat.zero_le k), Nat.sub_zero] at all

private theorem step_split (found : t.find? name = some h) (separator : UInt8) :
    ∃ t', t.step (.split name separator) = .ok t' ∧
      ∀ (k : Nat) (piece : Handle), (h.split separator)[k]? = some piece →
        t'.find? (name ++ "." ++ toString k) = some piece ∧
          (0 < piece.length → t'.Shares (name ++ "." ++ toString k) name) := by
  refine ⟨t.putPieces name (h.split separator), by simp only [step, stepBeside, found], fun k piece here => ?_⟩
  have there : (t.putPieces name (h.split separator)).find? (name ++ "." ++ toString k) = some piece := by
    rw [find?_putPieces_numbered, here, Option.some_or]
  refine ⟨there, fun some => ?_⟩
  rw [shares_iff there, find?_putPieces _ fun k => ne_numbered k]
  refine ⟨h, found, ?_⟩
  rw [sharesWith_congr (storage_of_mem_split (List.mem_of_getElem? here) some).symm]
  exact sharesWith_of_storage some rfl

/-- Whatever handles are live, one that is written to shares with no other from then on, and one that is only narrowed
shares as it did. The parts of a handle that is cut, the views taken of it and the pieces it is split into share with it
as soon as there is something to see. -/
theorem writes_unshare_views_share (t : Table) (found : t.find? name = some h) :
    (∀ action, t.Writes name h action → ∃ t', t.step action = .ok t' ∧ t'.Unshared name) ∧
      (∀ action, t.Spares name h action → ∃ t', t.step action = .ok t' ∧ SharesAsIn t t' name) ∧
      (∀ part place, part ≠ name → place ≤ h.length →
        (∃ t', t.step (.splitOff part name place) = .ok t' ∧
          (∀ other, other ≠ name → other ≠ part → (t'.Shares name other ↔ t.Shares name other)) ∧
          (t'.Shares name part ↔ place < h.length)) ∧
        ∃ t', t.step (.splitTo part name place) = .ok t' ∧
          (∀ other, other ≠ name → other ≠ part → (t'.Shares name other ↔ t.Shares name other)) ∧
          (t'.Shares name part ↔ 0 < place)) ∧
      (∀ view derivation g, view ≠ name → derivation.IsView → derivation.make t.held h = .ok g →
        ∃ t', t.step (.derive view name derivation) = .ok t' ∧ t'.find? view = some g ∧
          (0 < g.length → t'.Shares view name)) ∧
      ∀ separator, ∃ t', t.step (.split name separator) = .ok t' ∧
        ∀ (k : Nat) (piece : Handle), (h.split separator)[k]? = some piece →
          t'.find? (name ++ "." ++ toString k) = some piece ∧
            (0 < piece.length → t'.Shares (name ++ "." ++ toString k) name) :=
  ⟨fun _ => step_writes found, fun _ => step_spares found,
    fun _ _ differs inside => ⟨step_splitOff found differs inside, step_splitTo found differs inside⟩,
    fun _ _ _ differs isView made => step_view found differs isView made, step_split found⟩

/-- A text on the heap and a clone of it. -/
def clonedTable : Table := ⟨[("copy", ofList [] [97, 98, 44, 99]), ("text", ofList [] [97, 98, 44, 99])]⟩

theorem writes_unshare_views_share_cloned :
    clonedTable.Shares "text" "copy" ∧
      (∃ t', clonedTable.step (.change "text" (.push 33)) = .ok t' ∧ t'.Unshared "text") ∧
      (∃ t', clonedTable.step (.change "text" (.truncate 2)) = .ok t' ∧ t'.Shares "text" "copy") ∧
      (∃ t', clonedTable.step (.splitTo "head" "text" 2) = .ok t' ∧ t'.Shares "text" "head") ∧
      (∃ t', clonedTable.step (.derive "view" "text" (.left 3)) = .ok t' ∧ t'.Shares "view" "text") ∧
      ∃ t', clonedTable.step (.split "text" 44) = .ok t' ∧ t'.Shares "text.1" "text" := by
  have found : clonedTable.find? "text" = some (ofList [] [97, 98, 44, 99]) := rfl
  have shares : clonedTable.Shares "text" "copy" := ⟨_, _, found, rfl, rfl⟩
  obtain ⟨written, spared, parted, viewed, divided⟩ := writes_unshare_views_share clonedTable found
  obtain ⟨t₁, narrowed, as⟩ := spared (.change "text" (.truncate 2)) (.change (.inl (by decide)))
  obtain ⟨t₂, cut, -, head⟩ := (parted "head" 2 (by decide) (by decide)).2
  obtain ⟨t₃, taken, -, view⟩ := viewed "view" (.left 3) _ (by decide) trivial rfl
  obtain ⟨t₄, pieces, each⟩ := divided 44
  obtain ⟨last, here, shown⟩ : ∃ last, ((ofList [] [97, 98, 44, 99]).split 44)[1]? = some last ∧ last.content = [99] := by
    rw [← Option.map_eq_some_iff, ← List.getElem?_map, content_split]
    decide +kernel
  have long : 0 < last.length := by
    rw [← length_content, shown]
    decide
  exact ⟨shares, written _ (.change trivial), ⟨t₁, narrowed, (as "copy" (by decide)).mpr shares⟩,
    ⟨t₂, cut, head.mpr (by decide)⟩, ⟨t₃, taken, view (by decide)⟩, ⟨t₄, pieces, (each 1 last here).2 long⟩⟩

end Table

end Handle

end ByteFlow
