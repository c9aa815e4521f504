import ByteFlow.Proofs.Handle.Coherence

/-! Named handles beside those of other holders.
Whatever is done to a handle under a name, those under other names and those of all other holders stay as they
are, for an action counts their storages among the ones in use. -/
namespace ByteFlow.Handle

private theorem fresh_of_id? {held : List StorageId} (origin : Origin) {id : StorageId}
    (named : (origin.make held).id? = some id) : id ∉ held := by
  have copied (bytes : List UInt8) (named : (ofList held bytes).id? = some id) : id ∉ held := by
    rw [ofList] at named
    split at named
    · cases named
    · cases named
      exact fresh_notMem held
  cases origin with
  | nothing => cases named
  | copied bytes => exact copied bytes named
  | filled n b => exact copied (List.replicate n b) named
  | fixed bytes => cases named; exact fresh_notMem held
  | room capacity =>
    simp only [Origin.make, withCapacity] at named
    split at named
    · cases named
    · cases named
      exact fresh_notMem held

namespace Table

variable {t : Table} {name other source : String} {h g : Handle} {outside : List StorageId}

/-- The handles that names stand for. -/
def live (t : Table) : List Handle := t.entries.filterMap fun e => t.find? e.1

theorem mem_live : h ∈ t.live ↔ ∃ name, t.find? name = some h := by
  rw [live, List.mem_filterMap]
  constructor
  · rintro ⟨e, -, found⟩
    exact ⟨e.1, found⟩
  · rintro ⟨name, found⟩
    exact ⟨(name, h), mem_of_find? found, found⟩

private theorem ids_live_subset (t : Table) : ids t.live ⊆ t.held := by
  intro id member
  obtain ⟨h, live, named⟩ := mem_ids.mp member
  obtain ⟨name, found⟩ := mem_live.mp live
  exact mem_held found named

/-- The handles under other names. -/
private theorem mem_live_drop : h ∈ (t.drop name).live ↔ ∃ other, other ≠ name ∧ t.find? other = some h := by
  rw [mem_live]
  constructor
  · rintro ⟨other, found⟩
    have differs : other ≠ name := by
      rintro rfl
      rw [find?_drop_self] at found
      cases found
    exact ⟨other, differs, by rwa [find?_drop_of_ne t differs] at found⟩
  · rintro ⟨other, differs, found⟩
    exact ⟨other, by rwa [find?_drop_of_ne t differs]⟩

theorem live_drop_subset : (t.drop name).live ⊆ t.live := by
  intro h member
  obtain ⟨other, -, found⟩ := mem_live_drop.mp member
  exact mem_live.mpr ⟨other, found⟩

private theorem live_put_subset : (t.put name h).live ⊆ h :: (t.drop name).live := by
  intro g member
  obtain ⟨other, found⟩ := mem_live.mp member
  by_cases same : other = name
  · subst same
    rw [find?_put_self] at found
    cases found
    exact List.mem_cons_self
  · rw [find?_put_of_ne t h same] at found
    exact List.mem_cons_of_mem _ (mem_live_drop.mpr ⟨other, same, found⟩)

theorem live_put_subset_cons : (t.put name h).live ⊆ h :: t.live := by
  intro g member
  rcases List.mem_cons.mp (live_put_subset member) with same | there
  · exact List.mem_cons.mpr (.inl same)
  · exact List.mem_cons_of_mem _ (live_drop_subset there)

/-! Handles put under a name -/

/-- A view, or a handle as it is, may be put under any name. -/
private theorem put_covers (viewed : Covers t.live [h]) : Covers t.live (t.put name h).live :=
  (viewed.cons (.refl _)).trans (.of_subset live_put_subset_cons)

private theorem putPieces_covers {before : List Handle} (start : Covers before t.live) (pieces : List Handle)
    (viewed : ∀ piece ∈ pieces, Covers before [piece]) : Covers before (t.putPieces name pieces).live := by
  rw [putPieces]
  have viewed : ∀ p ∈ pieces.zipIdx, Covers before [p.1] := fun p member =>
    viewed p.1 (List.fst_mem_of_mem_zipIdx member)
  generalize pieces.zipIdx = numbered at viewed
  induction numbered generalizing t with
  | nil => exact start
  | cons p rest ih =>
    rw [List.forall_mem_cons] at viewed
    exact ih ((viewed.1.cons start).trans (.of_subset live_put_subset_cons)) viewed.2

/-- A handle made anew joins the others. -/
private theorem put_made (origin : Origin) :
    Becomes outside t.live (t.put name (origin.make (outside ++ t.held))).live := by
  have made : Becomes outside t.live (origin.make (outside ++ t.held) :: t.live) := by
    refine .of_new fun id named member => fresh_of_id? origin named ?_
    rcases List.mem_append.mp member with own | foreign
    · exact List.mem_append_right _ (ids_live_subset t own)
    · exact List.mem_append_left _ foreign
  exact made.trans (.of_covers (.of_subset live_put_subset_cons))

private theorem put_derived (found : t.find? source = some h)
    (placed : Placed (outside ++ t.held) h.storage g.storage) :
    Becomes outside t.live (t.put name g).live := by
  have derived : Becomes outside t.live (g :: t.live) := by
    refine .of_derived (mem_live.mpr ⟨source, found⟩) (placed.mono fun id member => ?_)
    rcases List.mem_append.mp member with own | foreign
    · exact List.mem_append_right _ (ids_live_subset t own)
    · exact List.mem_append_left _ foreign
  exact derived.trans (.of_covers (.of_subset live_put_subset_cons))

/-- The handle that was under the name is let go, so its storage does not count. -/
private theorem put_changed (found : t.find? name = some h)
    (placed : Placed (outside ++ t.heldByOthers name) h.storage g.storage) :
    Becomes outside t.live (t.put name g).live := by
  have parted : Covers t.live ([h] ++ (t.drop name).live) := by
    refine .of_subset fun o member => ?_
    rcases List.mem_cons.mp member with rfl | there
    · exact mem_live.mpr ⟨name, found⟩
    · exact live_drop_subset there
  have changed : Becomes outside ([h] ++ (t.drop name).live) ([g] ++ (t.drop name).live) := by
    refine .beside (.of_placed (placed.mono fun id member => ?_))
    rcases List.mem_append.mp member with own | foreign
    · exact List.mem_append_right _ (ids_live_subset (t.drop name) own)
    · exact List.mem_append_left _ foreign
  exact ((Becomes.of_covers parted).trans changed).trans (.of_covers (.of_subset live_put_subset))

/-- A handle cut in two leaves both parts where it was. -/
private theorem put_parts (found : t.find? source = some h) {first second : Handle}
    (viewed : ∀ held, Placed held h.storage first.storage) (kept : second.storage = h.storage) :
    Becomes outside t.live ((t.put source second).put name first).live := by
  have member : h ∈ t.live := mem_live.mpr ⟨source, found⟩
  have rest : Covers t.live (t.put source second).live := put_covers (.of_storage member kept)
  exact .of_covers (((Covers.of_placed member viewed).cons rest).trans (.of_subset live_put_subset_cons))

/-- Every action keeps the handles coherent with those of all other holders. -/
theorem stepBeside_becomes (t : Table) (outside : List StorageId) (action : Action) :
    Becomes outside t.live (Broken.after (t.stepBeside outside action)).live := by
  have outcome := t.stepBeside_outcome outside action
  generalize Broken.after (t.stepBeside outside action) = t' at outcome
  cases outcome with
  | same => exact .refl _
  | made named origin => exact put_made origin
  | derived named found placed => exact put_derived found placed
  | changed named found placed => exact put_changed found placed
  | parted named cut found viewed kept => exact put_parts found viewed kept
  | split named found pieces viewed =>
    refine .of_covers (putPieces_covers (.refl _) pieces fun piece member => ?_)
    exact .of_placed (mem_live.mpr ⟨_, found⟩) (viewed piece member)
  | dropped named => exact .of_covers (.of_subset live_drop_subset)

/-! Other names -/

theorem find?_putPieces (pieces : List Handle) (spared : ∀ k : Nat, other ≠ name ++ "." ++ toString k) :
    (t.putPieces name pieces).find? other = t.find? other := by
  rw [putPieces]
  generalize pieces.zipIdx = numbered
  induction numbered generalizing t with
  | nil => rfl
  | cons p rest ih =>
    rw [List.foldl_cons, ih]
    exact find?_put_of_ne t p.1 (spared p.2)

/-- An action leaves the handles under all other names. -/
theorem find?_stepBeside {action : Action} (spared : ¬ action.Names other) :
    (Broken.after (t.stepBeside outside action)).find? other = t.find? other := by
  have differs {name : String} (named : action.Names name) : other ≠ name := fun same => spared (same ▸ named)
  have outcome := t.stepBeside_outcome outside action
  generalize Broken.after (t.stepBeside outside action) = t' at outcome
  cases outcome with
  | same => rfl
  | made named | derived named | changed named => exact find?_put_of_ne t _ (differs named)
  | parted named cut =>
    rw [find?_put_of_ne _ _ (differs named), find?_put_of_ne _ _ (differs cut)]
  | split named found pieces => exact find?_putPieces pieces fun k => differs (named k)
  | dropped named => exact find?_drop_of_ne t (differs named)

end Table

end ByteFlow.Handle
