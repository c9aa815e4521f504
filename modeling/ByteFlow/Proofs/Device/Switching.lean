import ByteFlow.Proofs.Device.Grounded

/-! Switching read channels over memory.
There is one position and a queue for each channel, and a move, a read or a write only minds the current
one. What is queued on the others stays what stood at the position where they were left: a channel that is
chosen elsewhere, or after that place was written over, gives what does not stand there. -/
namespace ByteFlow.Device
open Medium

/-- What is queued is the first part of what stands at the position, which is what a read gives. -/
structure Tracks (d : Device Medium.Memory) : Prop where
  queued : d.readQueue.toList <+: d.medium.data.content.drop d.pos
  reads : ∀ n, ∃ h e, d.read n = (.ok h, e) ∧ h.content = (d.medium.data.content.drop d.pos).take n

/-- The calls that read, look, skip, move or write, and those that add and choose read channels. -/
def Action.surveys : Action → Prop
  | .seek _ | .reset | .write _ | .putByte _ | .growReading _ | .selectReading _ => True
  | action => action.reads

/-- The read channel that a call chooses, if it chooses one. -/
def Action.chosen : Action → Option Nat
  | .selectReading channel => some channel
  | _ => none

/-- What is queued on a channel that a call chooses is what stands at the position. -/
def Finds (d : Device Medium.Memory) (action : Action) : Prop :=
  ∀ channel ∈ action.chosen, ∀ q ∈ d.reading.queues[channel]?, q.toList <+: d.medium.data.content.drop d.pos

/-- Every channel that is chosen along a run has queued what stands at the position then. -/
def FindsAll (d : Device Medium.Memory) : List Action → Prop
  | [] => True
  | action :: rest => d.Finds action ∧ (d.perform action).2.FindsAll rest

/-- The contents keep a size that machine words can tell. -/
def StaysSmall (d : Device Medium.Memory) : List Action → Prop
  | [] => d.medium.data.content.length ≤ Word.maxValue
  | action :: rest => d.medium.data.content.length ≤ Word.maxValue ∧ (d.perform action).2.StaysSmall rest

instance decidableStaysSmall (d : Device Medium.Memory) : (actions : List Action) → Decidable (d.StaysSmall actions)
  | [] => inferInstanceAs (Decidable (_ ≤ _))
  | action :: rest =>
    have := decidableStaysSmall (d.perform action).2 rest
    inferInstanceAs (Decidable (_ ≤ _ ∧ _))

/-- A device over memory that reads bytes as they are, with no transaction and no byte put back. -/
structure Attuned (d : Device Medium.Memory) : Prop where
  grounded : Grounded d 0
  able : d.readObstacle? = none
  plain : d.isText = false
  idle : d.transaction = .idle
  queues : ∀ q ∈ d.reading.queues, q.WellFormed

variable {d e : Device Medium.Memory}

private theorem StaysSmall.now {actions : List Action} (small : d.StaysSmall actions) :
    d.medium.data.content.length ≤ Word.maxValue := by
  cases actions with
  | nil => exact small
  | cons _ _ => exact small.1

namespace Attuned

private theorem remaining_eq (attuned : Attuned d) : d.remaining = d.medium.data.content.drop d.pos :=
  attuned.grounded.stands attuned.grounded.random

private theorem tracks (attuned : Attuned d) : Tracks d := by
  have grounded := attuned.grounded
  refine ⟨?_, fun n => ?_⟩
  · rw [← attuned.remaining_eq]
    exact List.prefix_append ..
  · have delivers := read_delivers grounded.ready attuned.able n grounded.possible
    generalize d.read n = result at delivers
    obtain ⟨failure | h, e⟩ := result
    · exact absurd trivial delivers.2
    · obtain ⟨raw, t, portion, fills, -⟩ := delivers
      have taken := portion.eq_take fills trivial
      rw [attuned.plain, attuned.remaining_eq] at taken
      exact ⟨h, e, rfl, taken⟩

/-- A call on the current channel minds its queue alone. -/
private theorem alike (attuned : Attuned d) (grounded : Grounded e 0) (alike : Alike d e) : Attuned e := by
  obtain ⟨reading, mode, transaction⟩ := alike
  refine ⟨grounded, ?_, ?_, transaction.trans attuned.idle, fun q member => ?_⟩
  · rw [readObstacle?, isOpen, mode]
    exact attuned.able
  · rw [isText, mode]
    exact attuned.plain
  · obtain ⟨queued, has⟩ := grounded.supplies
    rw [reading] at member
    exact Channels.forall_put attuned.queues has.wellFormed q member

/-- A channel whose queue stands at the position may be chosen. -/
private theorem switched (attuned : Attuned d) {reading : Channels} (queues : reading.queues = d.reading.queues)
    (copied : reading.queue.toList <+: d.medium.data.content.drop d.pos) : Attuned { d with reading := reading } := by
  have grounded := attuned.grounded
  have wf := attuned.queues reading.queue (queues ▸ Channels.queue_mem reading)
  obtain ⟨queued, has⟩ := grounded.supplies
  obtain ⟨reach, small⟩ := grounded.inside
  have few := copied.length_le
  obtain ⟨rest, behind⟩ := copied
  rw [List.length_drop] at few
  refine { attuned with grounded := ?_, queues := queues.symm ▸ attuned.queues }
  refine grounded_of_supplies reading.queue.toList (s := d.medium.data.content.drop d.pos) grounded.random grounded.opened
    grounded.unsent grounded.possible
    ⟨trivial, has.kind, wf, rfl, fun stream => absurd (grounded.random.symm.trans stream) Bool.false_ne_true,
      fun random => ⟨?_, ?_, small, ?_⟩⟩
    (fun _ => rfl) grounded.fits grounded.begun
  · show d.medium.data.content.drop d.pos =
      reading.queue.toList ++ d.medium.data.content.drop (d.pos + reading.queue.toList.length)
    rw [← List.drop_drop, ← behind, List.drop_left]
  · show d.pos + reading.queue.toList.length ≤ d.medium.data.content.length
    omega
  · exact (has.placed grounded.random).stands

private theorem outside (attuned : Attuned d) : d.inTransaction = false := by
  rw [inTransaction, attuned.idle]
  rfl

private theorem selectReading_eq (attuned : Attuned d) {channel : Nat} (inside : channel < d.reading.count) :
    (d.selectReading channel).2 = if channel = d.reading.current then d else { d with reading := d.reading.select channel } := by
  rw [Device.selectReading, attuned.outside, if_neg Bool.false_ne_true, if_neg (Nat.not_le.mpr inside)]
  split <;> rfl

private theorem selectReading_refused (attuned : Attuned d) {channel : Nat} (none : ¬ channel < d.reading.count) :
    ∃ errorString, (d.selectReading channel).2 = { d with errorString := errorString } := by
  rw [Device.selectReading, attuned.outside, if_neg Bool.false_ne_true, if_pos (Nat.not_lt.mp none)]
  exact ⟨_, rfl⟩

private theorem selectReading (attuned : Attuned d) {channel : Nat} (finds : d.Finds (.selectReading channel)) :
    Attuned (d.selectReading channel).2 := by
  by_cases inside : channel < d.reading.count
  · rw [attuned.selectReading_eq inside]
    split
    · exact attuned
    · exact attuned.switched (Channels.queues_select ..) (finds channel rfl _ (d.reading.getElem?_select inside))
  · obtain ⟨errorString, refused⟩ := attuned.selectReading_refused inside
    rw [refused]
    exact attuned.alike (attuned.grounded.told _) (.told d _)

private theorem growReading (attuned : Attuned d) (n : Nat) : Attuned (d.growReading n) := by
  have queues := Channels.forall_grow (n := n) attuned.queues (ChunkQueue.wellFormed_withChunkSize d.config.chunkSize)
  exact { attuned with grounded := attuned.grounded.growReading n, queues := queues }

/-- The calls that mind the current channel alone. -/
private theorem draws (attuned : Attuned d) {action : Action} (reading : action.reads) :
    Attuned (d.perform action).2 ∧ Alike d (d.perform action).2 ∧ (d.perform action).2.medium.data = d.medium.data := by
  obtain ⟨kin, next⟩ := attuned.grounded.draws reading
  rw [Nat.zero_sub] at next
  exact ⟨attuned.alike next kin.alike, kin.alike, kin.medium.1⟩

private theorem seek (attuned : Attuned d) (place : Nat)
    (small : (d.seek place).2.medium.data.content.length ≤ Word.maxValue) :
    Attuned (d.seek place).2 ∧ Alike d (d.seek place).2 ∧ d.medium.data.content <+: (d.seek place).2.medium.data.content := by
  obtain ⟨next, alike, behind⟩ := attuned.grounded.seek place small
  rw [Nat.zero_sub] at next
  exact ⟨attuned.alike next alike, alike, behind⟩

private theorem write (attuned : Attuned d) (bytes : List UInt8)
    (small : (d.write bytes).2.medium.data.content.length ≤ Word.maxValue) :
    Attuned (d.write bytes).2 ∧ Alike d (d.write bytes).2 ∧ ∀ place, (d.write bytes).2.pos ≤ place →
      (d.write bytes).2.medium.data.content.drop place = d.medium.data.content.drop place := by
  obtain ⟨next, alike, behind⟩ := attuned.grounded.write bytes small
  rw [Nat.zero_sub] at next
  exact ⟨attuned.alike next alike, alike, behind⟩

private theorem after (attuned : Attuned d) {action : Action} (surveys : action.surveys) (finds : d.Finds action)
    (small : (d.perform action).2.medium.data.content.length ≤ Word.maxValue) : Attuned (d.perform action).2 := by
  by_cases reading : action.reads
  · exact (attuned.draws reading).1
  · cases action with
    | seek place => exact (attuned.seek place small).1
    | reset => exact (attuned.seek 0 small).1
    | write bytes => exact (attuned.write bytes small).1
    | putByte b =>
      rw [perform, answer, putByte_eq] at small ⊢
      exact (attuned.write [b] small).1
    | growReading n => exact attuned.growReading n
    | selectReading channel => exact attuned.selectReading finds
    | _ => exact absurd surveys reading

/-- A chosen channel whose queue is not what stands at the position ends the agreement. -/
private theorem finds (attuned : Attuned d) {action : Action} (tracks : Tracks (d.perform action).2) :
    d.Finds action := by
  cases action with
  | selectReading channel =>
    rintro _ ⟨⟩ q found
    obtain ⟨inside, -⟩ := List.getElem?_eq_some_iff.mp found
    rw [d.reading.getElem?_select inside] at found
    obtain rfl := Option.some.inj found
    have chosen : (d.perform (.selectReading channel)).2 = _ := attuned.selectReading_eq inside
    rw [chosen] at tracks
    split at tracks
    · next same =>
      subst same
      have still : some (d.reading.select d.reading.current).queue = some d.readQueue :=
        (d.reading.getElem?_select inside).symm.trans d.reading.getElem?_current
      rw [Option.some.inj still]
      exact attuned.tracks.queued
    · exact tracks.queued
  | _ => exact fun _ chosen => by cases chosen

/-- All that can part a queue from the contents is the choice of a channel that is not where they are. -/
private theorem tracks_iff (attuned : Attuned d) (actions : List Action) (surveys : ∀ action ∈ actions, action.surveys)
    (small : d.StaysSmall actions) :
    (∀ before, before <+: actions → Tracks (d.performAll before).2) ↔ d.FindsAll actions := by
  induction actions generalizing d with
  | nil =>
    refine ⟨fun _ => trivial, fun _ before first => ?_⟩
    rw [List.prefix_nil.mp first]
    exact attuned.tracks
  | cons action rest ih =>
    obtain ⟨-, later⟩ := small
    -- The rest of the run starts from a state of the same kind only once the chosen channel is where it should be.
    have next (finds : d.Finds action) := ih (attuned.after (surveys action List.mem_cons_self) finds later.now)
      (fun other member => surveys other (List.mem_cons_of_mem _ member)) later
    constructor
    · intro tracks
      have finds := attuned.finds (tracks [action] (List.prefix_append [action] rest))
      exact ⟨finds, (next finds).mp fun before first =>
        tracks (action :: before) (List.cons_prefix_cons.mpr ⟨rfl, first⟩)⟩
    · rintro ⟨finds, others⟩ before first
      cases before with
      | nil => exact attuned.tracks
      | cons head before =>
        obtain ⟨rfl, tail⟩ := List.cons_prefix_cons.mp first
        exact (next finds).mpr others before tail

end Attuned

/-! Where channels were left -/

/-- What is known of a channel that is not the current one. -/
inductive Mark where
  | unused
  /-- It was left when the position was `place`, and nothing from there on was written since. -/
  | left (place : Nat)
  | overwritten
  deriving DecidableEq

namespace Mark

/-- A write up to `stop` leaves what stands behind it. -/
def written (stop : Nat) : Mark → Mark
  | .left place => if stop ≤ place then .left place else .overwritten
  | mark => mark

/-- What a mark tells of the bytes queued on a channel. -/
def Tells (content bytes : List UInt8) : Mark → Prop
  | .unused => bytes = []
  | .left place => bytes <+: content.drop place
  | .overwritten => True

private theorem tells_nil (mark : Mark) (content : List UInt8) : mark.Tells content [] := by
  cases mark with
  | unused => rfl
  | left place => exact List.nil_prefix
  | overwritten => trivial

private theorem Tells.extended {mark : Mark} {content longer bytes : List UInt8} (tells : mark.Tells content bytes)
    (behind : content <+: longer) : mark.Tells longer bytes := by
  cases mark with
  | unused => exact tells
  | left place => exact List.IsPrefix.trans tells (List.IsPrefix.drop behind place)
  | overwritten => trivial

private theorem Tells.written {mark : Mark} {content changed bytes : List UInt8} {stop : Nat}
    (tells : mark.Tells content bytes)
    (behind : ∀ place, stop ≤ place → changed.drop place = content.drop place) :
    (mark.written stop).Tells changed bytes := by
  cases mark with
  | unused => exact tells
  | left place =>
    rw [Mark.written]
    split
    · next less =>
      rw [Tells, behind place less]
      exact tells
    · trivial
  | overwritten => trivial

end Mark

/-- The marks after a call. -/
def remark (d : Device Medium.Memory) (marks : Nat → Mark) : Action → Nat → Mark
  | .selectReading channel, other =>
    if channel < d.reading.count ∧ other = d.reading.current then .left d.pos else marks other
  | .write bytes, other => (marks other).written (d.write bytes).2.pos
  | .putByte b, other => (marks other).written (d.putByte b).2.pos
  | _, other => marks other

/-- A channel is chosen only if it is the current one, was never used, or was left at this position with
nothing written from there on since. -/
def Careful (d : Device Medium.Memory) (marks : Nat → Mark) : List Action → Prop
  | [] => True
  | action :: rest =>
    (∀ channel ∈ action.chosen, channel = d.reading.current ∨ marks channel = .unused ∨ marks channel = .left d.pos) ∧
      (d.perform action).2.Careful (d.remark marks action) rest

instance decidableCareful (d : Device Medium.Memory) (marks : Nat → Mark) :
    (actions : List Action) → Decidable (d.Careful marks actions)
  | [] => inferInstanceAs (Decidable True)
  | action :: rest =>
    have := decidableCareful (d.perform action).2 (d.remark marks action) rest
    inferInstanceAs (Decidable ((∀ channel ∈ action.chosen, _ ∨ _ ∨ _) ∧ _))

/-- The marks tell what is queued on all channels but the current one. -/
def Marked (d : Device Medium.Memory) (marks : Nat → Mark) : Prop :=
  ∀ channel q, channel ≠ d.reading.current → d.reading.queues[channel]? = some q →
    (marks channel).Tells d.medium.data.content q.toList

variable {marks marks' : Nat → Mark}

/-- A call that minds the current channel alone leaves what is queued on the others. -/
private theorem Marked.alike (marked : Marked d marks) (alike : Alike d e)
    (tells : ∀ channel bytes, (marks channel).Tells d.medium.data.content bytes →
      (marks' channel).Tells e.medium.data.content bytes) : Marked e marks' := by
  intro channel q other found
  have current : e.reading.current = d.reading.current := by rw [alike.reading]; rfl
  rw [current] at other
  rw [alike.reading, Channels.put, List.getElem?_set_ne (Ne.symm other)] at found
  exact tells channel q.toList (marked channel q other found)

/-- New channels are unused. -/
private theorem Marked.growReading (marked : Marked d marks) (n : Nat) : Marked (d.growReading n) marks := by
  intro channel q other found
  rw [Device.growReading, Channels.grow] at found
  by_cases inside : channel < d.reading.queues.length
  · rw [List.getElem?_append_left inside] at found
    exact marked channel q other found
  · rw [List.getElem?_append_right (Nat.not_lt.mp inside)] at found
    rw [List.eq_of_mem_replicate (List.mem_of_getElem? found), ChunkQueue.toList_withChunkSize]
    exact (marks channel).tells_nil _

/-- The channel that is left holds what stands at the position. -/
private theorem Marked.selectReading (marked : Marked d marks) (attuned : Attuned d) (channel : Nat) :
    Marked (d.selectReading channel).2 (d.remark marks (.selectReading channel)) := by
  by_cases inside : channel < d.reading.count
  · rw [attuned.selectReading_eq inside]
    intro other q apart found
    rw [remark]
    split at apart
    · next same =>
      rw [if_pos same] at found ⊢
      rw [if_neg fun current => apart current.2]
      exact marked other q apart found
    · next new =>
      rw [if_neg new] at found ⊢
      have queues : d.reading.queues[other]? = some q := by
        rwa [← Channels.queues_select d.reading channel]
      split
      · next current =>
        obtain ⟨-, rfl⟩ := current
        rw [Channels.getElem?_current] at queues
        obtain rfl := Option.some.inj queues
        exact attuned.tracks.queued
      · next elsewhere => exact marked other q (fun current => elsewhere ⟨inside, current⟩) queues
  · obtain ⟨errorString, refused⟩ := attuned.selectReading_refused inside
    rw [refused]
    refine marked.alike (.told d errorString) fun other bytes tells => ?_
    rwa [remark, if_neg fun current => inside current.1]

private theorem Marked.after (marked : Marked d marks) (attuned : Attuned d) {action : Action}
    (surveys : action.surveys)
    (small : (d.perform action).2.medium.data.content.length ≤ Word.maxValue) :
    Marked (d.perform action).2 (d.remark marks action) := by
  by_cases reading : action.reads
  · obtain ⟨-, alike, data⟩ := attuned.draws reading
    have same : d.remark marks action = marks := by
      cases action <;> first | rfl | exact absurd reading not_false
    rw [same]
    exact marked.alike alike fun _ _ tells => by rwa [data]
  · cases action with
    | seek place =>
      obtain ⟨-, alike, behind⟩ := attuned.seek place small
      exact marked.alike alike fun _ _ tells => tells.extended behind
    | reset =>
      obtain ⟨-, alike, behind⟩ := attuned.seek 0 small
      exact marked.alike alike fun _ _ tells => tells.extended behind
    | write bytes =>
      obtain ⟨-, alike, behind⟩ := attuned.write bytes small
      exact marked.alike alike fun _ _ tells => tells.written behind
    | putByte b =>
      have same : d.remark marks (.putByte b) = d.remark marks (.write [b]) := by
        funext other
        rw [remark, remark, putByte_eq]
      rw [same]
      rw [perform, answer, putByte_eq] at small ⊢
      obtain ⟨-, alike, behind⟩ := attuned.write [b] small
      exact marked.alike alike fun _ _ tells => tells.written behind
    | growReading n => exact marked.growReading n
    | selectReading channel => exact marked.selectReading attuned channel
    | _ => exact absurd surveys reading

/-- A channel that is chosen with care has queued what stands at the position. -/
private theorem Marked.finds (marked : Marked d marks) (attuned : Attuned d) {action : Action}
    (careful : ∀ channel ∈ action.chosen,
      channel = d.reading.current ∨ marks channel = .unused ∨ marks channel = .left d.pos) : d.Finds action := by
  intro channel chosen q found
  by_cases current : channel = d.reading.current
  · subst current
    rw [Channels.getElem?_current] at found
    obtain rfl := Option.some.inj found
    exact attuned.tracks.queued
  · have tells := marked channel q current found
    rcases careful channel chosen with same | unused | left
    · exact absurd same current
    · rw [unused] at tells
      have none : q.toList = [] := tells
      rw [none]
      exact List.nil_prefix
    · rwa [left] at tells

private theorem findsAll_of_careful (attuned : Attuned d) (marked : Marked d marks) {actions : List Action}
    (surveys : ∀ action ∈ actions, action.surveys) (small : d.StaysSmall actions) (careful : d.Careful marks actions) :
    d.FindsAll actions := by
  induction actions generalizing d marks with
  | nil => trivial
  | cons action rest ih =>
    obtain ⟨-, later⟩ := small
    obtain ⟨chooses, others⟩ := careful
    have finds := marked.finds attuned chooses
    have surveys_ := surveys action List.mem_cons_self
    exact ⟨finds, ih (attuned.after surveys_ finds later.now) (marked.after attuned surveys_ later.now)
      (fun other member => surveys other (List.mem_cons_of_mem _ member)) later others⟩

/-! From opening on -/

private theorem attuned_of_openWith {mode : OpenMode} (random : d.sequential = false)
    (possible : d.config.bufferSize < Word.requestLimit)
    (opened : d.openWith mode = (.ok (), e)) (readable : mode.readable = true) (plain : mode.text = false)
    (small : e.medium.data.content.length ≤ Word.maxValue) : Attuned e ∧ Marked e fun _ => .unused := by
  have grounded := grounded_of_openWith random possible opened small
  have isOpen := grounded.opened
  obtain ⟨-, rfl⟩ := openWith_inv opened
  refine ⟨⟨grounded, ?_, plain, rfl, Channels.forall_single (ChunkQueue.wellFormed_withChunkSize _)⟩,
    fun channel q other found => ?_⟩
  · have able : mode.normalized.readable = true := readable
    rw [readObstacle?, isOpen]
    dsimp only
    rw [able]
    rfl
  · cases channel with
    | zero => exact absurd rfl other
    | succ channel => cases found

/-- On a device over memory, opened in any mode to read bytes as they are, reading, looking, skipping, moving and
writing keep what is queued on the current read channel in step with the position, and so do choices of a channel
that is itself in step: the law holds all along a run just if every channel is so when it is chosen. That is the
case for the current channel, for one that was never used, and for one that was left at this very position, if
nothing was written from there on since. -/
theorem tracks_iff_finds {mode : OpenMode} (random : d.sequential = false) (possible : d.config.bufferSize < Word.requestLimit)
    (opened : d.openWith mode = (.ok (), e)) (readable : mode.readable = true) (plain : mode.text = false) (actions : List Action)
    (surveys : ∀ action ∈ actions, action.surveys) (small : e.StaysSmall actions) :
    ((∀ before, before <+: actions → Tracks (e.performAll before).2) ↔ e.FindsAll actions) ∧
      (e.Careful (fun _ => .unused) actions → e.FindsAll actions) := by
  obtain ⟨attuned, marked⟩ := attuned_of_openWith random possible opened readable plain small.now
  exact ⟨attuned.tracks_iff actions surveys small, findsAll_of_careful attuned marked surveys small⟩

/-- Letters in memory, opened to read and to write. -/
def letters : Device Medium.Memory :=
  ((ofMedium (Medium.Memory.ofHandle (Handle.ofFixed [] [97, 98, 99, 100, 101, 102])) ⟨4, 1, 0, false⟩).openWith
    (.forReading true false false)).2

/-- A second channel is read and written on, and the first one found again where it was left. -/
def returning : List Action :=
  [.growReading 2, .getByte, .selectReading 1, .read 2, .seek 0, .write [120], .peek 2, .selectReading 0, .getByte, .skip 1]

theorem tracks_iff_finds_returning : letters.FindsAll returning ∧
    (∀ before, before <+: returning → Tracks (letters.performAll before).2) ∧
    ∃ h e, (letters.performAll returning).2.read 9 = (.ok h, e) ∧ h.content = [100, 101, 102] := by
  have opened : (ofMedium (Medium.Memory.ofHandle (Handle.ofFixed [] [97, 98, 99, 100, 101, 102])) ⟨4, 1, 0, false⟩).openWith
      (.forReading true false false) = (.ok (), letters) := rfl
  obtain ⟨exact_, careful⟩ := tracks_iff_finds rfl (by decide) opened rfl rfl returning
    (by simp [returning, Action.surveys, Action.reads]) (by decide +kernel)
  have finds := careful (by decide +kernel)
  have tracks := exact_.mpr finds
  have rest : (letters.performAll returning).2.medium.data.content.drop (letters.performAll returning).2.pos =
      [100, 101, 102] := by decide +kernel
  obtain ⟨h, e, read, content⟩ := (tracks returning (List.prefix_refl _)).reads 9
  rw [rest] at content
  exact ⟨finds, tracks, h, e, read, content⟩

/-- The first channel is chosen again after a byte was read on the second one. -/
def crossing : List Action := [.growReading 2, .getByte, .selectReading 1, .getByte, .selectReading 0]

theorem tracks_crossing : (letters.performAll crossing).2.pos = 2 ∧
    (letters.performAll crossing).2.medium.data.content.drop 2 = [99, 100, 101, 102] ∧
    (letters.performAll crossing).2.readQueue.toList = [98, 99, 100] ∧
    (letters.performAll crossing).2.getByte.1.toOption = some (some 98) ∧ ¬ Tracks (letters.performAll crossing).2 := by
  refine ⟨by decide +kernel, by decide +kernel, by decide +kernel, by decide +kernel, fun tracks => ?_⟩
  have apart : ¬ (letters.performAll crossing).2.readQueue.toList <+:
      (letters.performAll crossing).2.medium.data.content.drop (letters.performAll crossing).2.pos := by decide +kernel
  exact apart tracks.queued

end ByteFlow.Device
