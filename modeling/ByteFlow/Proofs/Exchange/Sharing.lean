import ByteFlow.Proofs.Exchange.Layer
import ByteFlow.Proofs.Handle.Caller

/-! A caller and any number of queues and devices over one memory.
The caller makes, shares, changes and drops handles under names, hands them to queues, devices and media, with or
without keeping them, and receives others. Whoever acts stores what it carries; everyone else looks at the
memory that is left. -/
namespace ByteFlow
open Handle

/-- The caller's handles and all layers over one memory. -/
structure Exchange where
  memory : Memory
  table : Table
  layers : List Layer

namespace Exchange

def start : Exchange := ⟨⟨fun _ => [], fun _ => []⟩, Table.empty, []⟩

/-- Where a layer takes a handle over. -/
inductive Door where
  | back
  | channel (channel : Nat)
  | pipe (channel : Nat)
  | contents

def Door.request (data : Handle) : Door → Layer.Request
  | back => .queue (.append data false)
  | channel n => .device (.push n data)
  | pipe n => .feed n data
  | contents => .setData data

/-- Something done by the caller or by a layer. Layers that join hold nothing yet, and requests come without
handles but for those that the caller hands over. -/
inductive Action where
  | own (action : Table.Action)
  | join (layer : Layer) (blank : (ids layer.handles).isEmpty)
  | wrap (source : String) (keep : Bool) (config : Config)
  | hand (layer : Nat) (source : String) (keep : Bool) (door : Door)
  | ask (layer : Nat) (request : Layer.Request) (bare : request.given = []) (target : String)
  | leave (layer : Nat)

/-- All live handles. -/
def handles (x : Exchange) : List Handle := x.table.live ++ x.layers.flatMap Layer.handles

/-- The live handles but those of one layer. -/
def handlesBeside (x : Exchange) (i : Nat) : List Handle := x.table.live ++ (x.layers.eraseIdx i).flatMap Layer.handles

/-- Lets go of the handle under a name, unless it is kept. -/
def release (x : Exchange) (source : String) (keep : Bool) : Exchange :=
  if keep then x else { x with table := x.table.drop source }

/-- Puts what a layer gave out under a name, if there is one. -/
def receive (t : Table) (target? : Option String) (given : List Handle) : Table :=
  match target?, given with
  | some target, h :: _ => t.put target h
  | _, _ => t

/-- Has a layer serve a request and store what it carries then. -/
def serve (x : Exchange) (i : Nat) (request : Layer.Request) (target? : Option String) : Exchange :=
  match x.layers[i]? with
  | none => x
  | some layer =>
    let (given, layer) := layer.serve (x.handlesBeside i) request
    ⟨x.memory.store (given ++ layer.handles), receive x.table target? given, x.layers.set i layer⟩

/-- What cannot be done does nothing, or as much as comes before it breaks off. -/
def step (x : Exchange) : Action → Exchange
  | .own action =>
    let t := Broken.after (x.table.stepBeside (ids (x.layers.flatMap Layer.handles)) action)
    ⟨x.memory.store t.live, t, x.layers⟩
  | .join layer _ => { x with layers := x.layers ++ [layer] }
  | .wrap source keep config =>
    match x.table.find? source with
    | none => x
    | some h =>
      let x := x.release source keep
      { x with layers := x.layers ++ [.device (Device.ofMedium (.memory (.ofHandle h)) config)] }
  | .hand i source keep door =>
    match x.table.find? source with
    | none => x
    | some h => (x.release source keep).serve i (door.request h) none
  | .ask i request _ target => x.serve i request (some target)
  | .leave i => { x with layers := x.layers.set i (.queue (.start 0)) }

def run (x : Exchange) (actions : List Action) : Exchange := actions.foldl step x

/-- The bytes under a name, seen in memory. -/
def value (x : Exchange) (name : String) : Option (List UInt8) := (x.table.find? name).map x.memory.read

/-- The bytes of a layer, seen in memory. -/
def contents (x : Exchange) (i : Nat) : Option (List (List UInt8)) :=
  (x.layers[i]?).map (Layer.contents x.memory.read)

/-- The memory holds what every live handle carries. -/
def Sound (x : Exchange) : Prop := x.memory.Holds x.handles

variable {x : Exchange}

private theorem value_of_sound (sound : x.Sound) (name : String) : x.value name = (x.table.find? name).map content := by
  rw [value]
  cases found : x.table.find? name with
  | none => rfl
  | some h =>
    have live : h ∈ x.handles := List.mem_append_left _ (Table.mem_live.mpr ⟨name, found⟩)
    exact congrArg some (Memory.read_of_backs (sound h live))

private theorem contents_of_sound (sound : x.Sound) (i : Nat) : x.contents i = (x.layers[i]?).map Layer.carried := by
  rw [contents]
  cases here : x.layers[i]? with
  | none => rfl
  | some layer =>
    refine congrArg some (Layer.contents_eq fun h member => Memory.read_of_backs (sound h ?_))
    exact List.mem_append_right _ (List.mem_flatMap.mpr ⟨layer, List.mem_of_getElem? here, member⟩)

/-! Every step keeps the memory in step with all handles -/

private theorem sound_start : start.Sound := by
  intro h member
  cases member

private theorem handles_release_subset (x : Exchange) (source : String) (keep : Bool) :
    (x.release source keep).handles ⊆ x.handles := by
  rw [release]
  cases keep with
  | true => exact List.Subset.refl _
  | false =>
    exact List.append_subset.mpr
      ⟨fun h member => List.mem_append_left _ (Table.live_drop_subset member), List.subset_append_right ..⟩

private theorem live_receive_subset (t : Table) (target? : Option String) (given : List Handle) :
    (receive t target? given).live ⊆ given ++ t.live := by
  cases target? with
  | none => exact List.subset_append_right ..
  | some target =>
    cases given with
    | nil => exact List.Subset.refl _
    | cons h rest =>
      intro g member
      rcases List.mem_cons.mp (Table.live_put_subset_cons member) with rfl | there
      · exact List.mem_cons_self
      · exact List.mem_append_right _ there

/-- The handles of one layer and all others are all there are. -/
private theorem handles_perm {i : Nat} {layer : Layer} (here : x.layers[i]? = some layer) :
    (layer.handles ++ x.handlesBeside i).Perm x.handles := by
  have parted := flatMap_perm Layer.handles here
  rw [handles, handlesBeside]
  exact (List.perm_append_comm_assoc ..).trans (parted.append_left x.table.live)

/-- A layer may serve a request whose handles the memory holds. -/
private theorem sound_serve (sound : x.Sound) (i : Nat) (request : Layer.Request) (target? : Option String)
    (backed : x.memory.Holds request.given) : (x.serve i request target?).Sound := by
  rw [serve]
  cases here : x.layers[i]? with
  | none => exact sound
  | some layer =>
    have parted : x.memory.Holds (layer.handles ++ x.handlesBeside i) := Memory.Holds.subset sound (handles_perm here).subset
    obtain ⟨own, others⟩ := Memory.holds_append.mp parted
    have all := Memory.holds_append.mpr ⟨Memory.holds_append.mpr ⟨backed, own⟩, others⟩
    have coherent := layer.serve_becomes (x.handlesBeside i) request (x.handlesBeside i) (List.Subset.refl _) ⟨_, all⟩
    have stored := Memory.holds_store coherent others
    dsimp only
    generalize layer.serve (x.handlesBeside i) request = served at stored
    obtain ⟨given, after⟩ := served
    have inside : i < x.layers.length := (List.getElem?_eq_some_iff.mp here).1
    have there : (x.layers.set i after)[i]? = some after := by simp [inside]
    have merged := flatMap_perm Layer.handles there
    rw [List.eraseIdx_set_eq] at merged
    refine stored.subset fun h member => ?_
    rcases List.mem_append.mp member with named | layered
    · have := live_receive_subset x.table target? given named
      simp only [handlesBeside, List.mem_append] at this ⊢
      tauto
    · have := merged.symm.subset layered
      simp only [handlesBeside, List.mem_append] at this ⊢
      tauto

private theorem memory_release (x : Exchange) (source : String) (keep : Bool) :
    (x.release source keep).memory = x.memory := by
  rw [release]
  split <;> rfl

private theorem sound_release (sound : x.Sound) (source : String) (keep : Bool) : (x.release source keep).Sound := by
  rw [Sound, memory_release]
  exact sound.subset (handles_release_subset x source keep)

/-- A layer that joins may hold what the memory holds. -/
private theorem sound_join (sound : x.Sound) (layer : Layer) (backed : x.memory.Holds layer.handles) :
    Sound { x with layers := x.layers ++ [layer] } := by
  intro h member
  rw [handles] at member
  simp only [List.flatMap_append, List.flatMap_cons, List.flatMap_nil, List.append_nil, ← List.append_assoc] at member
  rcases List.mem_append.mp member with old | new
  · exact sound h old
  · exact backed h new

private theorem sound_own (sound : x.Sound) (action : Table.Action) : (x.step (.own action)).Sound := by
  have coherent := x.table.stepBeside_becomes _ action _ (List.Subset.refl _) ⟨_, sound⟩
  exact Memory.holds_store coherent (Memory.holds_append.mp sound).2

private theorem backs_of_find? (sound : x.Sound) {name : String} {h : Handle} (found : x.table.find? name = some h) :
    x.memory.Backs h.storage := sound h (List.mem_append_left _ (Table.mem_live.mpr ⟨name, found⟩))

/-- Every step keeps the memory in step with all live handles. -/
private theorem sound_step (sound : x.Sound) (action : Action) : (x.step action).Sound := by
  cases action with
  | own action => exact sound_own sound action
  | join layer blank =>
    refine sound_join sound layer fun h member => ?_
    have nameless : h.id? = none := by
      refine Option.eq_none_iff_forall_ne_some.mpr fun id named => ?_
      exact List.ne_nil_of_mem (mem_ids.mpr ⟨h, member, named⟩) (List.isEmpty_iff.mp blank)
    rw [storage_of_id?_eq_none nameless]
    exact x.memory.backs_absent
  | wrap source keep config =>
    rw [step]
    split
    · exact sound
    · next h found =>
      have released := sound_release sound source keep
      refine sound_join released _ ?_
      rw [memory_release]
      have wrapped : Covers [h] (Layer.device (.ofMedium (.memory (.ofHandle h)) config)).handles :=
        .cons .blank (.cons .blank (.refl _))
      exact wrapped _ (Memory.holds_cons.mpr ⟨backs_of_find? sound found, List.forall_mem_nil _⟩)
  | hand i source keep door =>
    rw [step]
    split
    · exact sound
    · next h found =>
      have released := sound_release sound source keep
      refine sound_serve released i _ none ?_
      rw [memory_release]
      cases door <;> exact Memory.holds_cons.mpr ⟨backs_of_find? sound found, List.forall_mem_nil _⟩
  | ask i request bare target =>
    refine sound_serve sound i request (some target) ?_
    rw [bare]
    exact List.forall_mem_nil _
  | leave i =>
    intro h member
    rcases List.mem_append.mp member with named | layered
    · exact sound h (List.mem_append_left _ named)
    · obtain ⟨layer, there, shown⟩ := List.mem_flatMap.mp layered
      rcases List.mem_or_eq_of_mem_set there with old | rfl
      · exact sound h (List.mem_append_right _ (List.mem_flatMap.mpr ⟨layer, old, shown⟩))
      · have blank : Covers [] (Layer.queue (.start 0)).handles := .cons .blank .blank
        exact blank x.memory (List.forall_mem_nil _) h shown

private theorem sound_run (sound : x.Sound) (actions : List Action) : (x.run actions).Sound := by
  induction actions generalizing x with
  | nil => exact sound
  | cons action actions ih => exact ih (sound_step sound action)

/-! Whom a step is about -/

/-- The names that a step may give another handle or take away. -/
def Action.Names : Action → String → Prop
  | .own action, name => action.Names name
  | .wrap source keep _, name | .hand _ source keep _, name => keep = false ∧ name = source
  | .ask _ _ _ target, name => name = target
  | .join .., _ | .leave _, _ => False

/-- Whether a step asks something of a layer, hands something to it or ends it. -/
def Action.Concerns : Action → Nat → Prop
  | .hand layer .., i | .ask layer .., i | .leave layer, i => i = layer
  | .own _, _ | .join .., _ | .wrap .., _ => False

private theorem find?_release {name source : String} {keep : Bool} (spared : ¬ (keep = false ∧ name = source)) :
    (x.release source keep).table.find? name = x.table.find? name := by
  rw [release]
  cases keep with
  | true => rfl
  | false => exact Table.find?_drop_of_ne _ fun same => spared ⟨rfl, same⟩

private theorem layers_release (x : Exchange) (source : String) (keep : Bool) :
    (x.release source keep).layers = x.layers := by
  rw [release]
  split <;> rfl

private theorem find?_serve {i : Nat} {request : Layer.Request} {target? : Option String} {name : String}
    (spared : ∀ target ∈ target?, name ≠ target) : (x.serve i request target?).table.find? name = x.table.find? name := by
  rw [serve]
  split
  · rfl
  · dsimp only
    generalize (Layer.serve _ _ request).1 = given
    cases target? with
    | none => rfl
    | some target =>
      cases given with
      | nil => rfl
      | cons h rest => exact Table.find?_put_of_ne _ _ (spared target rfl)

private theorem getElem?_serve {i j : Nat} {request : Layer.Request} {target? : Option String} (differs : j ≠ i) :
    (x.serve i request target?).layers[j]? = x.layers[j]? := by
  rw [serve]
  split
  · rfl
  · exact List.getElem?_set_ne differs.symm

private theorem find?_step {action : Action} {name : String} (spared : ¬ action.Names name) :
    (x.step action).table.find? name = x.table.find? name := by
  cases action with
  | own action => exact Table.find?_stepBeside spared
  | join | leave => rfl
  | wrap source keep config =>
    rw [step]
    split
    · rfl
    · exact find?_release spared
  | hand i source keep door =>
    rw [step]
    split
    · rfl
    · refine (find?_serve ?_).trans (find?_release spared)
      simp
  | ask i request bare target =>
    refine find?_serve fun other there => ?_
    cases there
    exact spared

/-- A layer that a step is not about stays as it is. -/
private theorem getElem?_step {action : Action} {i : Nat} {layer : Layer} (spared : ¬ action.Concerns i)
    (here : x.layers[i]? = some layer) : (x.step action).layers[i]? = some layer := by
  have joined (more : List Layer) : (x.layers ++ more)[i]? = some layer := by
    rw [List.getElem?_append_left (List.getElem?_eq_some_iff.mp here).1]
    exact here
  cases action with
  | own action => exact here
  | join more blank => exact joined [more]
  | wrap source keep config =>
    rw [step]
    split
    · exact here
    · dsimp only
      rw [layers_release]
      exact joined _
  | hand j source keep door =>
    rw [step]
    split
    · exact here
    · rw [getElem?_serve spared, layers_release]
      exact here
  | ask j request bare target =>
    rw [step, getElem?_serve spared]
    exact here
  | leave j =>
    rw [step]
    dsimp only
    rw [List.getElem?_set_ne (Ne.symm spared)]
    exact here

private theorem find?_run {actions : List Action} {name : String} (spared : ∀ action ∈ actions, ¬ action.Names name) :
    (x.run actions).table.find? name = x.table.find? name := by
  induction actions generalizing x with
  | nil => rfl
  | cons action actions ih =>
    rw [List.forall_mem_cons] at spared
    exact (ih spared.2).trans (find?_step spared.1)

private theorem getElem?_run {actions : List Action} {i : Nat} {layer : Layer}
    (spared : ∀ action ∈ actions, ¬ action.Concerns i) (here : x.layers[i]? = some layer) :
    (x.run actions).layers[i]? = some layer := by
  induction actions generalizing x with
  | nil => exact here
  | cons action actions ih =>
    rw [List.forall_mem_cons] at spared
    exact ih spared.2 (getElem?_step spared.1 here)

/-- Whatever was handed to queues, devices and media or received from them before, kept or not, each handle shows
in memory what it carries, and so does each layer. From then on a handle shows the same bytes until the caller
acts on its own name, and a layer holds the same bytes until it is asked for something. -/
theorem sharing_leaks_nothing (earlier : List Action) :
    (∀ name, (start.run earlier).value name = ((start.run earlier).table.find? name).map content) ∧
      (∀ i, (start.run earlier).contents i = ((start.run earlier).layers[i]?).map Layer.carried) ∧
      ∀ later,
        (∀ name, (∀ action ∈ later, ¬ action.Names name) →
          ((start.run earlier).run later).value name = (start.run earlier).value name) ∧
        ∀ i bytes, (∀ action ∈ later, ¬ action.Concerns i) → (start.run earlier).contents i = some bytes →
          ((start.run earlier).run later).contents i = some bytes := by
  have sound := sound_run sound_start earlier
  refine ⟨value_of_sound sound, contents_of_sound sound, fun later => ?_⟩
  have sound' := sound_run sound later
  refine ⟨fun name spared => ?_, fun i bytes spared shown => ?_⟩
  · rw [value_of_sound sound, value_of_sound sound', find?_run spared]
  · rw [contents_of_sound sound, Option.map_eq_some_iff] at shown
    obtain ⟨layer, here, rfl⟩ := shown
    rw [contents_of_sound sound', getElem?_run spared here]
    rfl

/-- A queue, a memory device and a pipe are handed a text or a view of it, and some of it is received back; the
queue keeps the text as a spare chunk. -/
def trading : List Action :=
  [.own (.make "text" (.copied [104, 105, 33, 10])), .own (.derive "view" "text" (.mid 1 (some 2))),
    .join (.queue (.start 8)) rfl, .hand 0 "view" true .back, .ask 0 (.queue .readChunk) rfl "chunk",
    .hand 0 "text" true .back, .ask 0 (.queue (.skip 4)) rfl "none",
    .wrap "text" true ⟨4, 0, 0, false⟩, .ask 1 (.device (.openWith .readWrite)) rfl "none",
    .join (.device (.ofMedium (.pipe .empty) ⟨4, 0, 0, false⟩)) rfl, .ask 2 (.device (.openWith .readWrite)) rfl "none",
    .hand 2 "view" true (.channel 0), .ask 2 (.device (.read 2)) rfl "read", .hand 2 "text" true (.pipe 0)]

/-- All three write. -/
def working : List Action :=
  [.ask 0 (.queue (.reserve 2 fun _ => 120)) rfl "none", .ask 0 (.queue (.unget 121)) rfl "none",
    .ask 1 (.device (.write [122])) rfl "none", .ask 1 (.device (.seek 6)) rfl "none",
    .ask 2 (.device (.ungetByte 121)) rfl "none"]

/-- The caller writes. -/
def meddling : List Action :=
  [.own (.change "text" (.store 0 [88])), .own (.change "chunk" (.push 33)), .own (.appendShared "view" "text")]

theorem sharing_leaks_nothing_trading :
    (start.run trading).value "text" = some [104, 105, 33, 10] ∧
      ((start.run trading).run working).value "text" = some [104, 105, 33, 10] ∧
      ((start.run trading).run working).contents 1 = some [[], [], [122, 105, 33, 10, 0, 0]] ∧
      (start.run trading).contents 2 = some [[], [], [104, 105, 33, 10]] ∧
      ((start.run trading).run meddling).contents 2 = some [[], [], [104, 105, 33, 10]] := by
  have shows : (start.run trading).value "text" = some [104, 105, 33, 10] := by decide +kernel
  have holds : (start.run trading).contents 2 = some [[], [], [104, 105, 33, 10]] := by decide +kernel
  have spared : ∀ action ∈ working, ¬ action.Names "text" := by simp [working, Action.Names]
  have apart : ∀ action ∈ meddling, ¬ action.Concerns 2 := by simp [meddling, Action.Concerns]
  obtain ⟨-, -, later⟩ := sharing_leaks_nothing trading
  exact ⟨shows, ((later working).1 "text" spared).trans shows, by decide +kernel, holds,
    (later meddling).2 2 _ apart holds⟩

end Exchange

end ByteFlow
