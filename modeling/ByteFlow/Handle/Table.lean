import ByteFlow.Handle.Text

/-! Named live handles, and what can be done with them one action at a time.
The storages that count as held by others are those of all handles but the one that changes. -/
namespace ByteFlow.Handle

/-- How a handle is made from data. -/
inductive Origin where
  | nothing
  | copied (bytes : List UInt8)
  | fixed (bytes : List UInt8)
  | filled (n : Nat) (b : UInt8)
  | room (capacity : Nat)

def Origin.make (held : List StorageId) : Origin → Handle
  | nothing => empty
  | copied bytes => ofList held bytes
  | fixed bytes => ofFixed held bytes
  | filled n b => Handle.filled held n b
  | room capacity => withCapacity held capacity

/-- The room of the storage that is made. -/
def Origin.need : Origin → Nat
  | nothing => 0
  | copied bytes | fixed bytes => bytes.length
  | filled n _ => n
  | room capacity => capacity

/-- How a handle is made from a live one, which stays as it is. -/
inductive Derivation where
  | clone
  | slice (first : Lower) (last : Upper)
  | left (n : Nat)
  | right (n : Nat)
  | chopped (n : Nat)
  | mid (place : Nat) (n? : Option Nat)
  | lower
  | upper
  | trimmed
  | simplified
  | repeated (n : Nat)
  | plus (bytes : List UInt8)

def Derivation.make (held : List StorageId) (h : Handle) : Derivation → Except Fault Handle
  | clone => .ok h
  | slice first last => h.slice first last
  | left n => .ok (h.left n)
  | right n => .ok (h.right n)
  | chopped n => .ok (h.chopped n)
  | mid place n? => .ok (h.mid place n?)
  | lower => .ok (h.toLower held)
  | upper => .ok (h.toUpper held)
  | trimmed => .ok h.trimmed
  | simplified => .ok (h.simplified held)
  | repeated n => .ok (h.repeated held n)
  | plus bytes => .ok (h.append held bytes)

/-- A change of one handle. -/
inductive Change where
  | resize (n : Nat) (b : UInt8)
  | reserve (capacity : Nat)
  | squeeze
  | truncate (n : Nat)
  | chop (n : Nat)
  | clear
  | detach
  | append (bytes : List UInt8)
  | push (b : UInt8)
  | prepend (bytes : List UInt8)
  | insert (place : Nat) (bytes : List UInt8)
  | remove (place n : Nat)
  | replace (place n : Nat) (after : List UInt8)
  | replaceAll (before after : List UInt8)
  | replaceByte (before after : UInt8)
  | fill (b : UInt8) (length? : Option Nat)
  | extend (bytes : List UInt8)
  | set (index : Nat) (b : UInt8)
  | store (place : Nat) (bytes : List UInt8)
  | reverse
  | lower
  | upper
  | trim
  | simplify

def Change.apply (held : List StorageId) (h : Handle) : Change → Except (Broken Handle) Handle
  | resize n b => .ok (h.resizeWith held n b)
  | reserve capacity => .ok (h.reserve held capacity)
  | squeeze => .ok (h.squeeze held)
  | truncate n => .ok (h.truncate held n)
  | chop n => .ok (h.chop held n)
  | clear => .ok empty
  | detach => .ok (h.detach held)
  | append bytes => .ok (h.append held bytes)
  | push b => .ok (h.push held b)
  | prepend bytes => .ok (h.prepend held bytes)
  | insert place bytes => .ok (h.insert held place bytes)
  | remove place n => .ok (h.remove held place n)
  | replace place n after => h.replace held place n after
  | replaceAll before after => .ok (h.replaceAll held before after)
  | replaceByte before after => .ok (h.replaceByte held before after)
  | fill b length? => .ok (h.fill held b length?)
  | extend bytes => .ok (h.extend held bytes)
  | set index b => .ok (h.set held index b)
  | store place bytes => .ok (h.store held place bytes)
  | reverse => .ok (h.reverse held)
  | lower => .ok (h.intoLower held)
  | upper => .ok (h.intoUpper held)
  | trim => .ok (h.intoTrimmed held)
  | simplify => .ok (h.intoSimplified held)

/-! Room. A storage is asked for before bytes are put into it, so what is asked for is told from sizes
alone. What asks for more than any storage has room for breaks off. -/

/-- The room of the storage that is made, if it may need more than the handle shows. -/
def Derivation.need (held : List StorageId) (h : Handle) : Derivation → Nat
  | repeated n => n * h.length
  | plus bytes => h.roomFor held (h.length + bytes.length) (h.length + bytes.length)
  | _ => 0

/-- The room of the storage that bytes are put into at a place. -/
def roomToInsert (held : List StorageId) (place n : Nat) (h : Handle) : Nat :=
  if n = 0 then 0
  else match Word.add? (max place h.length) n with
    | none => 0
    | some room =>
      if h.length < place then Storage.grown (h.roomFor held room place) room
      else h.roomFor held room room

/-- The room of the storage that a change puts bytes into, if it may need more than the handle shows. -/
def Change.need (held : List StorageId) (h : Handle) : Change → Nat
  | resize n _ | fill _ (some n) => if h.length < n then h.roomFor held n n else 0
  | reserve capacity => h.roomFor held capacity capacity
  | append bytes | extend bytes =>
    h.roomFor held (h.length + bytes.length) (h.length + bytes.length)
  | push _ => h.roomFor held (h.length + 1) (h.length + 1)
  | prepend bytes => h.roomToInsert held 0 bytes.length
  | insert place bytes => h.roomToInsert held place bytes.length
  | replace place n after =>
    if n = after.length ∧ Word.addWrapped place n ≤ h.length then 0
    else (h.remove held place n).roomToInsert held place after.length
  | replaceAll before after =>
    match Search.replaceAll? h.content before after with
    | none => 0
    | some pieces => Storage.grownAlong h.length 0 pieces
  | set index _ =>
    if h.length ≤ index ∧ index < Word.maxValue then h.roomFor held (index + 1) (index + 1) else 0
  | _ => 0

/-- The handle when the storage is asked for. -/
def Change.begun (held : List StorageId) (h : Handle) : Change → Handle
  | reserve _ => { h with reserved := true }
  | replace place n _ => h.remove held place n
  | _ => h

/-- A change, which breaks off if it asks for more room than a storage can have. -/
def Change.attempt (held : List StorageId) (h : Handle) (change : Change) :
    Except (Broken Handle) Handle :=
  if change.need held h ≤ Storage.limit then change.apply held h
  else .error ⟨.tooLarge, change.begun held h⟩

/-- The live handles in the order of their names. -/
structure Table where
  entries : List (String × Handle)

namespace Table

def empty : Table := ⟨[]⟩

def find? (t : Table) (name : String) : Option Handle := t.entries.lookup name

/-- The storages of all handles. -/
def held (t : Table) : List StorageId := ids (t.entries.map Prod.snd)

/-- The handles under other names. -/
def others (t : Table) (name : String) : List (String × Handle) :=
  t.entries.filter fun e => e.1 != name

/-- The storages that handles under other names hold. -/
def heldByOthers (t : Table) (name : String) : List StorageId :=
  ids ((t.others name).map Prod.snd)

def putSorted (name : String) (h : Handle) : List (String × Handle) → List (String × Handle)
  | [] => [(name, h)]
  | e :: rest =>
    if name = e.1 then (name, h) :: rest
    else if name < e.1 then (name, h) :: e :: rest
    else e :: putSorted name h rest

/-- Names a handle; one that had the name is let go. -/
def put (t : Table) (name : String) (h : Handle) : Table := ⟨putSorted name h t.entries⟩

def drop (t : Table) (name : String) : Table := ⟨t.others name⟩

/-- The other names whose handles share storage with `h`. -/
def sharing (t : Table) (name : String) (h : Handle) : List String :=
  ((t.others name).filter fun e => h.sharesWith e.2).map Prod.fst

/-- Something done to the live handles. -/
inductive Action where
  | make (name : String) (origin : Origin)
  | derive (name source : String) (derivation : Derivation)
  | change (name : String) (change : Change)
  | appendShared (name source : String)
  | splitOff (name source : String) (place : Nat)
  | splitTo (name source : String) (place : Nat)
  | split (name : String) (separator : UInt8)
  | drop (name : String)

/-- Gives the pieces the names `name.0`, `name.1` and so on. -/
def putPieces (t : Table) (name : String) (pieces : List Handle) : Table :=
  pieces.zipIdx.foldl (fun t p => t.put (name ++ "." ++ toString p.2) p.1) t

/-- The table with a handle changed, or as far as the change came. -/
def putBroken (t : Table) (name : String) :
    Except (Broken Handle) Handle → Except (Broken Table) Table
  | .ok h => .ok (t.put name h)
  | .error broken => .error ⟨broken.fault, t.put name broken.left⟩

/-- An action while others hold the storages in `outside`. One on a handle that is not live does
nothing, and neither does a faulty one, unless it is a change that comes to something. -/
def stepBeside (t : Table) (outside : List StorageId) : Action → Except (Broken Table) Table
  | .make name origin => .ok (t.put name (origin.make (outside ++ t.held)))
  | .derive name source derivation =>
    match t.find? source with
    | none => .ok t
    | some h =>
      match derivation.make (outside ++ t.held) h with
      | .ok g => .ok (t.put name g)
      | .error fault => .error ⟨fault, t⟩
  | .change name change =>
    match t.find? name with
    | none => .ok t
    | some h => t.putBroken name (change.apply (outside ++ t.heldByOthers name) h)
  | .appendShared name source =>
    match t.find? name, t.find? source with
    | some h, some other =>
      let held := outside ++ t.heldByOthers name
      .ok (t.put name (h.appendShared (other.id?.toList ++ held) other))
    | _, _ => .ok t
  | .splitOff name source place =>
    match t.find? source with
    | none => .ok t
    | some h =>
      match h.splitOff place with
      | .ok (part, rest) => .ok ((t.put source rest).put name part)
      | .error fault => .error ⟨fault, t⟩
  | .splitTo name source place =>
    match t.find? source with
    | none => .ok t
    | some h =>
      match h.splitTo place with
      | .ok (part, rest) => .ok ((t.put source rest).put name part)
      | .error fault => .error ⟨fault, t⟩
  | .split name separator =>
    match t.find? name with
    | none => .ok t
    | some h => .ok (t.putPieces name (h.split separator))
  | .drop name => .ok (t.drop name)

/-- An action where nobody else holds any storage. -/
def step (t : Table) (action : Action) : Except (Broken Table) Table := t.stepBeside [] action

/-- The room of the storage that an action other than a change asks for. -/
def need (t : Table) : Action → Nat
  | .make _ origin => origin.need
  | .derive _ source derivation => (t.find? source).elim 0 fun h => derivation.need t.held h
  | .appendShared name source =>
    match t.find? name, t.find? source with
    | some h, some other =>
      if h.isEmpty ∧ !h.reserved then 0
      else
        let held := other.id?.toList ++ t.heldByOthers name
        h.roomFor held (h.length + other.length) (h.length + other.length)
    | _, _ => 0
  | _ => 0

/-- An action that breaks off if it asks for more room than a storage can have. -/
def attempt (t : Table) : Action → Except (Broken Table) Table
  | .change name change =>
    match t.find? name with
    | none => .ok t
    | some h => t.putBroken name (change.attempt (t.heldByOthers name) h)
  | action => if t.need action ≤ Storage.limit then t.step action else .error ⟨.tooLarge, t⟩

end Table

end ByteFlow.Handle
