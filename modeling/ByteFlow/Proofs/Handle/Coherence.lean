import ByteFlow.Proofs.Handle.Memory
import Mathlib.Data.List.Perm.Basic

/-! Handles of several holders over one memory.
Handles are coherent if one memory can hold what all of them carry. An operation of one holder is harmless if
its handles stay coherent with those of every other holder, whatever these are; such operations follow one
another, and go on beside further handles of the same holder. -/
namespace ByteFlow

/-- The memory holds what all the handles carry. -/
def Memory.Holds (m : Memory) (hs : List Handle) : Prop := ∀ h ∈ hs, m.Backs h.storage

namespace Handle

variable {held more : List StorageId} {hs before middle after rest : List Handle} {h g : Handle}

/-- One memory can hold what all the handles carry. -/
def Coherent (hs : List Handle) : Prop := ∃ m : Memory, m.Holds hs

/-- What holds all of the first handles holds all of the second. -/
def Covers (hs others : List Handle) : Prop := ∀ m : Memory, m.Holds hs → m.Holds others

/-- The first handles may give way to the second while others, whose storages are all in `held`, stay. -/
def Becomes (held : List StorageId) (before after : List Handle) : Prop :=
  ∀ others, ids others ⊆ held → Coherent (before ++ others) → Coherent (after ++ others)

/-! Names -/

theorem mem_ids {id : StorageId} : id ∈ ids hs ↔ ∃ h ∈ hs, h.id? = some id := List.mem_filterMap

@[simp] theorem ids_append (hs others : List Handle) : ids (hs ++ others) = ids hs ++ ids others :=
  List.filterMap_append

theorem ids_singleton (h : Handle) : ids [h] = h.id?.toList := by
  rw [ids, List.filterMap_cons]
  cases h.id? <;> rfl

theorem storage_of_id?_eq_none (nameless : h.id? = none) : h.storage = .absent := by
  cases stored : h.storage <;> simp [Handle.id?, Storage.id?, stored] at nameless
  rfl

theorem ids_subset {others : List Handle} (part : others ⊆ hs) : ids others ⊆ ids hs := by
  intro id member
  obtain ⟨h, there, named⟩ := mem_ids.mp member
  exact mem_ids.mpr ⟨h, part there, named⟩

end Handle

/-! Memory -/

namespace Memory

variable {m m' : Memory} {hs others : List Handle}

theorem holds_append : m.Holds (hs ++ others) ↔ m.Holds hs ∧ m.Holds others := List.forall_mem_append

theorem holds_cons {h : Handle} : m.Holds (h :: hs) ↔ m.Backs h.storage ∧ m.Holds hs := List.forall_mem_cons

theorem Holds.subset (holds : m.Holds hs) (part : others ⊆ hs) : m.Holds others :=
  fun h member => holds h (part member)

/-- What is stored beside bytes that it agrees with leaves them as they are. -/
private theorem backs_write_of_agree {new s : Storage} (backs : m.Backs s) (first : m'.Backs new)
    (second : m'.Backs s) :
    (m.write new).Backs s := by
  cases new with
  | absent => exact backs
  | fixed id bytes =>
    cases s with
    | fixed other held =>
      by_cases same : other = id
      · subst same
        have agree : bytes = held := Eq.trans (Eq.symm first) second
        simp [Backs, write, bytesOf, Storage.bytes, agree]
      · simpa [Backs, write, bytesOf, same] using backs
    | absent | heap => exact backs
  | heap id bytes capacity =>
    cases s with
    | heap other held room =>
      by_cases same : other = id
      · subst same
        have agree : bytes = held := Eq.trans (Eq.symm first) second
        simp [Backs, write, bytesOf, Storage.bytes, agree]
      · simpa [Backs, write, bytesOf, same] using backs
    | absent | fixed => exact backs

/-- Stores what all the handles carry. -/
def store (m : Memory) (hs : List Handle) : Memory := hs.foldl (fun m h => m.write h.storage) m

/-- One holder stores what it carries; the memory then holds that, and what it held of all others. -/
theorem holds_store (coherent : Handle.Coherent (hs ++ others)) (kept : m.Holds others) :
    (m.store hs).Holds (hs ++ others) := by
  induction hs generalizing m others with
  | nil => exact kept
  | cons h hs ih =>
    obtain ⟨m', agreed⟩ := coherent
    have moved : (h :: hs) ++ others ⊆ hs ++ h :: others := by
      intro g member
      simpa [or_left_comm] using member
    have moved' : hs ++ h :: others ⊆ (h :: hs) ++ others := by
      intro g member
      simpa [or_left_comm] using member
    have stored : (m.write h.storage).Holds (h :: others) := by
      refine holds_cons.mpr ⟨m.backs_write_self _, fun o member => ?_⟩
      exact backs_write_of_agree (kept o member) (agreed h (by simp)) (agreed o (by simp [member]))
    exact (ih ⟨m', agreed.subset moved'⟩ stored).subset moved

end Memory

namespace Handle

variable {held more : List StorageId} {hs before middle after rest : List Handle} {h g : Handle}

/-! Views -/

namespace Covers

theorem of_subset (part : after ⊆ before) : Covers before after := fun _ holds => holds.subset part

theorem refl (hs : List Handle) : Covers hs hs := fun _ holds => holds

theorem trans (first : Covers before middle) (second : Covers middle after) : Covers before after :=
  fun m holds => second m (first m holds)

theorem append {hs' others others' : List Handle} (first : Covers hs hs') (second : Covers others others') :
    Covers (hs ++ others) (hs' ++ others') := by
  intro m holds
  obtain ⟨here, there⟩ := Memory.holds_append.mp holds
  exact Memory.holds_append.mpr ⟨first m here, second m there⟩

theorem cons (first : Covers hs [h]) (second : Covers hs rest) : Covers hs (h :: rest) :=
  fun m holds => Memory.holds_cons.mpr ⟨first m holds h (List.mem_singleton_self h), second m holds⟩

theorem swap {others : List Handle} : Covers (hs ++ others) (others ++ hs) :=
  of_subset (by simp)

theorem keep (h : Handle) (covers : Covers before after) : Covers (h :: before) (h :: after) :=
  fun m holds => (Memory.holds_cons.mp holds).elim fun here there => Memory.holds_cons.mpr ⟨here, covers m there⟩

theorem of_storage (member : h ∈ hs) (same : g.storage = h.storage) : Covers hs [g] := by
  intro m holds o here
  obtain rfl := List.mem_singleton.mp here
  rw [same]
  exact holds h member

private theorem of_absent (nowhere : ∀ h ∈ after, h.storage = .absent) : Covers before after := by
  intro m _ h member
  rw [nowhere h member]
  exact m.backs_absent

/-- A handle without storage is always at hand. -/
theorem blank : Covers hs [Handle.empty] := of_absent fun h member => by rw [List.mem_singleton.mp member, Handle.empty]

/-- What is placed where a handle was, whatever others hold, is a view of it or nothing. -/
theorem of_placed (member : h ∈ hs) (placed : ∀ held, Placed held h.storage g.storage) : Covers hs [g] := by
  intro m holds o here
  obtain rfl := List.mem_singleton.mp here
  exact Memory.backs_of_placed placed (holds h member)

end Covers

/-! Operations of one holder -/

namespace Becomes

theorem of_covers (covers : Covers before after) : Becomes held before after := by
  intro others _ ⟨m, holds⟩
  exact ⟨m, covers.append (.refl others) m holds⟩

theorem refl (hs : List Handle) : Becomes held hs hs := of_covers (.refl hs)

theorem trans (first : Becomes held before middle) (second : Becomes held middle after) : Becomes held before after :=
  fun others known coherent => second others known (first others known coherent)

/-- Where more may be in use elsewhere, less may. -/
theorem mono (becomes : Becomes more before after) (fewer : held ⊆ more) : Becomes held before after :=
  fun others known => becomes others fun _ member => fewer (known member)

/-- Further handles of the holder count as those of another. -/
theorem beside (becomes : Becomes (ids rest ++ held) before after) : Becomes held (before ++ rest) (after ++ rest) := by
  intro others known coherent
  rw [List.append_assoc] at coherent ⊢
  refine becomes (rest ++ others) ?_ coherent
  rw [ids_append]
  exact List.append_subset.mpr ⟨List.subset_append_left _ _, fun _ member => List.mem_append_right _ (known member)⟩

/-- One handle is placed where others do not look. -/
theorem of_placed (placed : Placed held h.storage g.storage) : Becomes held [h] [g] := by
  intro others known ⟨m, holds⟩
  obtain ⟨backs, kept⟩ := Memory.holds_cons.mp holds
  refine ⟨m.write g.storage, Memory.holds_cons.mpr ⟨m.backs_write_self _, fun o member => ?_⟩⟩
  refine Memory.backs_write_of_placed placed backs (kept o member) fun id named => ?_
  exact known (mem_ids.mpr ⟨o, member, named⟩)

/-- A handle on storage that nobody has joins the others. -/
theorem of_new (free : ∀ id, g.id? = some id → id ∉ ids hs ++ held) : Becomes held hs (g :: hs) := by
  intro others known ⟨m, holds⟩
  cases named : g.id? with
  | none =>
    exact ⟨m, Memory.holds_cons.mpr ⟨storage_of_id?_eq_none named ▸ m.backs_absent, holds⟩⟩
  | some id =>
    refine ⟨m.write g.storage, Memory.holds_cons.mpr ⟨m.backs_write_self _, fun o member => ?_⟩⟩
    refine Memory.backs_write_of_notMem named (free id named) (holds o member) fun other holder => ?_
    rcases List.mem_append.mp member with own | foreign
    · exact List.mem_append_left _ (mem_ids.mpr ⟨o, own, holder⟩)
    · exact List.mem_append_right _ (known (mem_ids.mpr ⟨o, foreign, holder⟩))

/-- A handle is derived from one that stays. -/
theorem of_derived (member : h ∈ hs) (placed : Placed (ids hs ++ held) h.storage g.storage) :
    Becomes held hs (g :: hs) := by
  have twice : Becomes held hs ([h] ++ hs) := of_covers (.of_subset (by simp [member]))
  exact twice.trans (of_placed placed).beside

/-- Further handles of the holder may come first. -/
theorem behind (becomes : Becomes (ids rest ++ held) before after) : Becomes held (rest ++ before) (rest ++ after) :=
  ((of_covers Covers.swap).trans becomes.beside).trans (of_covers Covers.swap)

/-- A copy of bytes needs no storage or one of its own. -/
theorem of_copy (bytes : List UInt8) (all : ids hs ++ held ⊆ more) : Becomes held hs (ofList more bytes :: hs) := by
  refine of_new fun id named member => ?_
  have placed : Placed more .absent (ofList more bytes).storage := placed_ofList more bytes fun _ member => member
  rw [Handle.id?] at named
  cases stored : (ofList more bytes).storage with
  | absent => simp [stored, Storage.id?] at named
  | fixed => rw [stored] at placed; cases placed
  | heap other _ _ =>
    rw [stored] at placed named
    cases placed with
    | own _ _ _ free =>
      cases named
      exact free (all member)

end Becomes

/-! Parts of one holder -/

section
variable {α : Type} (parts : α → List Handle) {xs : List α} {i : Nat} {x y : α} {given answers : List Handle}

theorem flatMap_perm (here : xs[i]? = some x) :
    (parts x ++ (xs.eraseIdx i).flatMap parts).Perm (xs.flatMap parts) := by
  obtain ⟨inside, rfl⟩ := List.getElem?_eq_some_iff.mp here
  exact (List.getElem_cons_eraseIdx_perm inside).flatMap_right parts

/-- A change of one part is one of them all, if the other parts count as held. -/
theorem Becomes.part (here : xs[i]? = some x)
    (becomes : Becomes (ids ((xs.eraseIdx i).flatMap parts) ++ held) (given ++ parts x) (answers ++ parts y)) :
    Becomes held (given ++ xs.flatMap parts) (answers ++ (xs.set i y).flatMap parts) := by
  have inside : i < xs.length := (List.getElem?_eq_some_iff.mp here).1
  have there : (xs.set i y)[i]? = some y := by simp [inside]
  have before := flatMap_perm parts here
  have after := flatMap_perm parts there
  rw [List.eraseIdx_set_eq] at after
  have changed := becomes.beside
  rw [List.append_assoc, List.append_assoc] at changed
  refine (Becomes.of_covers ?_).trans (changed.trans (.of_covers ?_))
  · exact .of_subset ((before.append_left given).subset)
  · exact .of_subset ((after.append_left answers).symm.subset)

/-- One of several handles is placed where neither the rest nor others look. -/
theorem Becomes.one {i : Nat} (here : hs[i]? = some h) (placed : Placed (ids (hs.eraseIdx i) ++ held) h.storage g.storage) :
    Becomes held hs (hs.set i g) := by
  have single : Becomes (ids (hs.eraseIdx i) ++ held) ([] ++ [h]) ([] ++ [g]) := .of_placed placed
  rw [← List.flatMap_singleton' (hs.eraseIdx i)] at single
  have changed := Becomes.part (fun h => [h]) here single
  rwa [List.flatMap_singleton', List.flatMap_singleton'] at changed

theorem Covers.part (here : xs[i]? = some x) (covers : Covers (parts x) (parts y)) :
    Covers (xs.flatMap parts) ((xs.set i y).flatMap parts) := by
  intro m holds h member
  obtain ⟨z, there, shown⟩ := List.mem_flatMap.mp member
  rcases List.mem_or_eq_of_mem_set there with old | rfl
  · exact holds h (List.mem_flatMap.mpr ⟨z, old, shown⟩)
  · refine covers m (fun g known => holds g ?_) h shown
    exact List.mem_flatMap.mpr ⟨x, List.mem_of_getElem? here, known⟩

theorem modify_eq_set (here : xs[i]? = some x) (f : α → α) : xs.modify i f = xs.set i (f x) := by
  rw [List.modify_eq_set_getElem?, here]
  rfl

/-- What is put behind the parts and holds nothing does not matter. -/
theorem Covers.pad (blank : Covers [] (parts y)) (xs : List α) (n : Nat) :
    Covers (xs.flatMap parts) ((xs ++ List.replicate n y).flatMap parts) := by
  intro m holds
  rw [List.flatMap_append]
  refine Memory.holds_append.mpr ⟨holds, fun h member => ?_⟩
  obtain ⟨z, padding, there⟩ := List.mem_flatMap.mp member
  obtain rfl := List.eq_of_mem_replicate padding
  exact blank m (by simp [Memory.Holds]) h there

end

end Handle

end ByteFlow
