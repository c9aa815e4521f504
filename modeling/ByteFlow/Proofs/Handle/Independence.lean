import ByteFlow.Proofs.Handle.Memory
import ByteFlow.Proofs.Handle.Replacement

/-! Handles behave as values of their own.
Beside the live handles run plain byte lists, each of its own; what the handles show in their one
memory is at every step what the lists are. -/
namespace ByteFlow.Handle

/-! The plain lists -/

def Origin.value : Origin → List UInt8
  | nothing => []
  | copied bytes => bytes
  | fixed bytes => bytes
  | filled n b => List.replicate n b
  | room _ => []

/-- The bytes between two places, if they are in order and inside. -/
def between (first : Lower) (last : Upper) (s : List UInt8) : Option (List UInt8) :=
  match first.place, last.place s.length with
  | .ok start, .ok stop => if start ≤ stop ∧ stop ≤ s.length then some ((s.take stop).drop start) else none
  | _, _ => none

def Derivation.value (s : List UInt8) : Derivation → Option (List UInt8)
  | clone => some s
  | slice first last => between first last s
  | left n => some (s.take n)
  | right n => some (s.drop (s.length - n))
  | chopped n => some (s.take (s.length - n))
  | mid place n? => some ((s.drop place).take (n?.getD s.length))
  | lower => some (s.map Byte.toLower)
  | upper => some (s.map Byte.toUpper)
  | trimmed => some (Text.Spacing.trim s)
  | simplified => some (Text.Spacing.joinWords s)
  | repeated n => some (List.replicate n s).flatten
  | plus bytes => some (s ++ bytes)

/-- What a change makes of a list of bytes. Growing adds copies of the byte given, or zeros. -/
def Change.value (s : List UInt8) : Change → List UInt8
  | resize n b => s.take n ++ List.replicate (n - s.length) b
  | reserve _ | squeeze | detach => s
  | truncate n => s.take n
  | chop n => s.take (s.length - n)
  | clear => []
  | append bytes | extend bytes => s ++ bytes
  | push b => s ++ [b]
  | prepend bytes => bytes ++ s
  | insert place bytes => if bytes = [] then s else inserted place bytes s
  | remove place n => removed place n s
  | replace place n after =>
    if after = [] then removed place n s else inserted place after (removed place n s)
  | replaceAll before after => Search.substitute before after s
  | replaceByte before after => s.map fun b => if b = before then after else b
  | fill b length? => List.replicate (length?.getD s.length) b
  | set index b => (s ++ List.replicate (index + 1 - s.length) 0).set index b
  | store place bytes => overlaid place bytes s
  | reverse => s.reverse
  | lower => s.map Byte.toLower
  | upper => s.map Byte.toUpper
  | trim => Text.Spacing.trim s
  | simplify => Text.Spacing.joinWords s

/-- The sums of sizes that a change makes are sizes. -/
def Change.InRange (s : List UInt8) : Change → Prop
  | prepend bytes => s.length + bytes.length ≤ Word.maxValue
  | insert place bytes => max place s.length + bytes.length ≤ Word.maxValue
  | replace place n after =>
    place + n ≤ Word.maxValue ∧ max place (removed place n s).length + after.length ≤ Word.maxValue
  | set index _ => index < Word.maxValue
  | _ => True

instance (s : List UInt8) (change : Change) : Decidable (change.InRange s) := by
  cases change <;> unfold Change.InRange <;> infer_instance

/-- Named lists of bytes. -/
abbrev Values := String → Option (List UInt8)

namespace Values

def put (v : Values) (name : String) (s : List UInt8) : Values := fun other =>
  if other = name then some s else v other

def drop (v : Values) (name : String) : Values := fun other => if other = name then none else v other

def putPieces (v : Values) (name : String) (pieces : List (List UInt8)) : Values :=
  pieces.zipIdx.foldl (fun v p => v.put (name ++ "." ++ toString p.2) p.1) v

/-- An action on named lists. -/
def step (v : Values) : Table.Action → Values
  | .make name origin => v.put name origin.value
  | .derive name source derivation =>
    match (v source).bind fun s => derivation.value s with
    | some s => v.put name s
    | none => v
  | .change name change =>
    match v name with
    | some s => v.put name (change.value s)
    | none => v
  | .appendShared name source =>
    match v name, v source with
    | some s, some bytes => v.put name (s ++ bytes)
    | _, _ => v
  | .splitOff name source place =>
    match v source with
    | some s => if place ≤ s.length then (v.put source (s.take place)).put name (s.drop place) else v
    | none => v
  | .splitTo name source place =>
    match v source with
    | some s => if place ≤ s.length then (v.put source (s.drop place)).put name (s.take place) else v
    | none => v
  | .split name separator =>
    match v name with
    | some s => v.putPieces name (s.splitOn separator)
    | none => v
  | .drop name => v.drop name

def run (v : Values) (actions : List Table.Action) : Values := actions.foldl step v

/-- An action with sums of sizes that are sizes. -/
def Admits (v : Values) : Table.Action → Prop
  | .change name change => ∀ s ∈ v name, change.InRange s
  | _ => True

/-- Actions one after the other, each admitted where it comes. -/
def AdmitsAll (v : Values) : List Table.Action → Prop
  | [] => True
  | action :: actions => v.Admits action ∧ AdmitsAll (v.step action) actions

instance (v : Values) (action : Table.Action) : Decidable (v.Admits action) := by
  cases action <;> unfold Admits <;> infer_instance

instance decidableAdmitsAll (v : Values) (actions : List Table.Action) : Decidable (v.AdmitsAll actions) :=
  match actions with
  | [] => .isTrue trivial
  | action :: actions =>
    have := decidableAdmitsAll (v.step action) actions
    inferInstanceAs (Decidable (_ ∧ _))

end Values

/-! Handles show the lists -/

private theorem content_make (held : List StorageId) (origin : Origin) : (origin.make held).content = origin.value := by
  cases origin with
  | room capacity =>
    simp only [Origin.make, withCapacity, Origin.value]
    split
    · rfl
    · exact content_allocate ..
  | nothing => rfl
  | fixed bytes => exact content_whole ..
  | copied bytes => exact content_ofList ..
  | filled n b => exact content_ofList ..

private theorem content_slice (h : Handle) (first : Lower) (last : Upper) :
    (h.slice first last).toOption.map content = between first last h.content := by
  simp only [slice, between, bind, Except.bind, length_content]
  cases first.place with
  | error => rfl
  | ok start =>
    dsimp only
    cases last.place h.length with
    | error => rfl
    | ok stop =>
      dsimp only
      split
      · simp [Except.toOption, pure, Except.pure, content_view, List.drop_take]
      · rfl

private theorem content_derive (held : List StorageId) (h : Handle) (derivation : Derivation) :
    (derivation.make held h).toOption.map content = derivation.value h.content := by
  cases derivation with
  | slice first last => exact content_slice h first last
  | plus bytes => exact congrArg some (content_append ..)
  | _ => simp [Derivation.make, Derivation.value, Except.toOption, chopped]

/-- A change in range gives the bytes that it makes of the list. -/
private theorem content_change (held : List StorageId) (h : Handle) (change : Change)
    (range : change.InRange h.content) :
    ∃ r, change.apply held h = .ok r ∧ r.content = change.value h.content := by
  cases change with
  | replace place n after => exact content_replace held place n after h range.1 range.2
  | insert place bytes =>
    rw [Change.InRange, length_content] at range
    exact ⟨_, rfl, content_insert held place bytes h range⟩
  | prepend bytes =>
    rw [Change.InRange, length_content] at range
    exact ⟨_, rfl, content_prepend held bytes h range⟩
  | set index b => exact ⟨_, rfl, by simpa [Change.value] using content_set held index b h range⟩
  | resize n b => exact ⟨_, rfl, by simpa [Change.value] using content_resizeWith held n b h⟩
  | replaceAll before after => exact ⟨_, rfl, content_replaceAll held before after h⟩
  | _ => exact ⟨_, rfl, by simp [Change.value]⟩

/-- The bytes that the live handles carry. -/
def Table.values (t : Table) : Values := fun name => (t.find? name).map content

namespace Table

variable (t : Table) (name : String) (h : Handle)

private theorem values_of_find? {t : Table} {name : String} {h : Handle} (found : t.find? name = some h) :
    t.values name = some h.content := by
  rw [values, found, Option.map_some]

private theorem values_of_none {t : Table} {name : String} (found : t.find? name = none) : t.values name = none := by
  rw [values, found, Option.map_none]

@[simp] theorem values_put : (t.put name h).values = t.values.put name h.content := by
  funext other
  by_cases same : other = name
  · subst same
    simp [values, Values.put]
  · simp [values, Values.put, same]

private theorem values_drop : (t.drop name).values = t.values.drop name := by
  funext other
  by_cases same : other = name
  · subst same
    simp [values, Values.drop]
  · simp [values, Values.drop, same]

private theorem values_putPieces (pieces : List Handle) :
    (t.putPieces name pieces).values = t.values.putPieces name (pieces.map content) := by
  rw [putPieces, Values.putPieces]
  rw [List.zipIdx_map, List.foldl_map]
  generalize pieces.zipIdx = numbered
  induction numbered generalizing t with
  | nil => rfl
  | cons p rest ih => rw [List.foldl_cons, ih, values_put]; rfl

end Table

namespace World

variable {w : World}

/-- One action does to the bytes carried what it does to the lists. -/
private theorem values_step (w : World) (action : Table.Action) (admitted : w.table.values.Admits action) :
    (w.step action).table.values = w.table.values.step action := by
  obtain ⟨m, t⟩ := w
  cases action with
  | make name origin =>
    refine (Table.values_put ..).trans ?_
    rw [content_make]
    rfl
  | derive name source derivation =>
    simp only [step, Table.step, Table.stepBeside, List.nil_append, Values.step]
    cases found : t.find? source with
    | none => rw [Table.values_of_none found]; rfl
    | some h =>
      rw [Table.values_of_find? found, Option.bind_some, ← content_derive t.held h derivation]
      dsimp only
      cases derivation.make t.held h with
      | error => rfl
      | ok r => exact Table.values_put ..
  | change name change =>
    simp only [step, Table.step, Table.stepBeside, List.nil_append, Values.step]
    cases found : t.find? name with
    | none => rw [Table.values_of_none found]; rfl
    | some h =>
      have value := Table.values_of_find? found
      obtain ⟨r, changed, bytes⟩ := content_change (t.heldByOthers name) h change (admitted _ value)
      rw [value]
      dsimp only
      rw [changed]
      refine (Table.values_put ..).trans ?_
      rw [bytes]
  | appendShared name source =>
    simp only [step, Table.step, Table.stepBeside, List.nil_append, Values.step]
    cases found : t.find? name with
    | none => rw [Table.values_of_none found]; rfl
    | some h =>
      cases given : t.find? source with
      | none => rw [Table.values_of_find? found, Table.values_of_none given]; rfl
      | some other =>
        rw [Table.values_of_find? found, Table.values_of_find? given]
        refine (Table.values_put ..).trans ?_
        rw [content_appendShared]
  | splitOff name source place =>
    simp only [step, Table.step, Table.stepBeside, Values.step]
    cases found : t.find? source with
    | none => rw [Table.values_of_none found]; rfl
    | some h =>
      rw [Table.values_of_find? found]
      by_cases fits : place ≤ h.length
      · simp [settle, Handle.splitOff, fits, Broken.after, content_view, List.take_of_length_le]
      · simp [settle, Handle.splitOff, fits, Broken.after]
  | splitTo name source place =>
    simp only [step, Table.step, Table.stepBeside, Values.step]
    cases found : t.find? source with
    | none => rw [Table.values_of_none found]; rfl
    | some h =>
      rw [Table.values_of_find? found]
      by_cases fits : place ≤ h.length
      · simp [settle, Handle.splitTo, fits, Broken.after, content_view]
      · simp [settle, Handle.splitTo, fits, Broken.after]
  | split name separator =>
    simp only [step, Table.step, Table.stepBeside, Values.step]
    cases found : t.find? name with
    | none => rw [Table.values_of_none found]; rfl
    | some h =>
      rw [Table.values_of_find? found]
      refine (Table.values_putPieces ..).trans ?_
      rw [content_split]
  | drop name => exact Table.values_drop t name

private theorem values_run (w : World) (actions : List Table.Action) (admitted : w.table.values.AdmitsAll actions) :
    (w.run actions).table.values = w.table.values.run actions := by
  induction actions generalizing w with
  | nil => rfl
  | cons action actions ih =>
    obtain ⟨now, later⟩ := admitted
    rw [← values_step w action now] at later
    refine (ih (w.step action) later).trans ?_
    rw [values_step w action now]
    rfl

private theorem value_eq_values {w : World} (sound : w.Sound) : w.value = w.table.values :=
  funext (value_of_sound sound)

/-- Whatever handles were made, shared and changed before, what each shows in memory is a list of its
own. A change gives its own list of the old bytes, all other handles show what they showed, and no
action but the laying down of fixed storage alters any. -/
theorem handles_are_values (actions : List Table.Action) (admitted : Values.AdmitsAll (fun _ => none) actions) :
    (start.run actions).value = Values.run (fun _ => none) actions ∧
      (∀ name change s, (start.run actions).value name = some s → change.InRange s →
        ((start.run actions).step (.change name change)).value name = some (change.value s) ∧
          ∀ other, other ≠ name →
            ((start.run actions).step (.change name change)).value other = (start.run actions).value other) ∧
      ∀ action, (∀ name bytes, action ≠ .make name (.fixed bytes)) →
        ((start.run actions).step action).memory.fixed = (start.run actions).memory.fixed := by
  have sound := sound_run sound_start actions
  refine ⟨?_, fun name change s shows range => ?_, fun action old => fixed_step sound action old⟩
  · exact (value_eq_values sound).trans (values_run start actions admitted)
  · have next := sound_step sound (.change name change)
    rw [value_eq_values sound] at shows ⊢
    have stepped := values_step (start.run actions) (.change name change) fun t shown => by
      rw [shows] at shown
      cases shown
      exact range
    rw [value_eq_values next, stepped, Values.step, shows]
    exact ⟨if_pos rfl, fun other differs => if_neg differs⟩

/-- Views and clones of fixed and heap storage, of which some are cut, grown again and written. -/
def mixedActions : List Table.Action :=
  [.make "text" (.fixed [32, 104, 105, 32]), .derive "view" "text" (.mid 1 (some 2)),
    .derive "copy" "view" .clone, .change "copy" (.push 33), .derive "both" "copy" .clone,
    .change "copy" (.truncate 1), .change "copy" (.resize 3 46), .change "text" .trim,
    .change "text" (.replaceAll [105] [111, 111]), .splitOff "tail" "both" 1, .appendShared "tail" "view",
    .change "view" (.insert 4 [120]), .change "both" (.replace 0 1 [72]), .make "room" (.room 8),
    .change "room" (.set 2 122), .derive "word" "text" (.plus [33]), .drop "copy"]

theorem handles_are_values_mixed :
    Values.AdmitsAll (fun _ => none) mixedActions ∧
      (start.run mixedActions).value = Values.run (fun _ => none) mixedActions ∧
      (start.run mixedActions).value "view" = some [104, 105, 32, 32, 120] ∧
      ((start.run mixedActions).step (.change "view" (.chop 3))).value "view" = some [104, 105] ∧
      ((start.run mixedActions).step (.change "view" (.chop 3))).value "tail" =
        (start.run mixedActions).value "tail" := by
  have admitted : Values.AdmitsAll (fun _ => none) mixedActions := by decide +kernel
  have shows : (start.run mixedActions).value "view" = some [104, 105, 32, 32, 120] := by decide +kernel
  obtain ⟨run, changed, -⟩ := handles_are_values mixedActions admitted
  obtain ⟨here, there⟩ := changed "view" (.chop 3) _ shows trivial
  exact ⟨admitted, run, shows, here, there "tail" (by decide)⟩

end World

end ByteFlow.Handle
