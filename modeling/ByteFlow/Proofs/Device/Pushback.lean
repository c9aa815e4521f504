import ByteFlow.Proofs.Device.Grounded

/-! The states that a device over memory can come to with one read channel.
Bytes that were put back stand before what stands in memory until they are read, passed by or given up
with the queue; how many of them are unread is counted beside the run, for the device does not keep it. -/
namespace ByteFlow.Device
open Medium

/-- How many bytes that were put back are unread after a call, if `k` were so before it: one more if it puts
one back, else those that it does not move past, as far as they stay queued. -/
def pushedBack (d : Device Medium.Memory) (k : Nat) (action : Action) : Nat :=
  match action, (d.perform action).1 with
  | .ungetByte _, .ok _ => k + 1
  | _, _ => min (k - ((d.perform action).2.pos - d.pos)) (d.perform action).2.readQueue.length

/-- A device over memory, opened however it was used before, and since then used with one read channel. Of
the bytes put back `k` are unread. -/
inductive InUse : Device Medium.Memory → Nat → Prop where
  | opened {d e : Device Medium.Memory} (mode : OpenMode) : d.sequential = false → d.config.bufferSize < Word.requestLimit →
      d.openWith mode = (.ok (), e) → e.medium.data.content.length ≤ Word.maxValue → InUse e 0
  | call {d : Device Medium.Memory} {k : Nat} (action : Action) : InUse d k → (d.perform action).2.isOpen = true →
      (d.perform action).2.reading.count = 1 → (d.perform action).2.medium.data.content.length ≤ Word.maxValue →
      InUse (d.perform action).2 (d.pushedBack k action)
  /-- Handles with these storages are held outside from now on. -/
  | hold {d : Device Medium.Memory} {k : Nat} (ids : List StorageId) : InUse d k → InUse { d with outside := ids } k

variable {d e : Device Medium.Memory} {k : Nat}

private theorem pushedBack_of_onward (d : Device Medium.Memory) (k : Nat) {action : Action} (onward : action.onward) :
    d.pushedBack k action = min (k - ((d.perform action).2.pos - d.pos)) (d.perform action).2.readQueue.length := by
  cases action with
  | ungetByte b => exact absurd onward not_false
  | _ => rfl

/-- Of one channel there is no other to choose. -/
private theorem selectReading_single (single : d.reading.count = 1) (channel : Nat) :
    ∃ errorString, (d.selectReading channel).2 = { d with errorString := errorString } := by
  have inside : d.reading.current < d.reading.count := d.reading.inside
  rw [selectReading]
  split
  · exact ⟨_, rfl⟩
  · split
    · exact ⟨_, rfl⟩
    · rw [if_pos (by omega)]
      exact ⟨d.errorString, rfl⟩

private theorem Grounded.after (grounded : Grounded d k) (single : d.reading.count = 1) (action : Action)
    (opened : (d.perform action).2.isOpen = true) (small : (d.perform action).2.medium.data.content.length ≤ Word.maxValue) :
    Grounded (d.perform action).2 (d.pushedBack k action) := by
  by_cases onward : action.onward
  · rw [pushedBack_of_onward d k onward]
    exact (perform_grounded grounded onward opened small).capped
  · cases action with
    | ungetByte b =>
      rcases grounded.ungetByte b with ⟨failure, errorString, refused⟩ | ⟨e, done, next⟩
      · have result : d.perform (.ungetByte b) = (.error failure, { d with errorString := errorString }) := by
          rw [perform, refused]
          rfl
        simp only [pushedBack, result]
        exact ((grounded.told errorString).still rfl).capped
      · have result : d.perform (.ungetByte b) = (.ok .done, e) := by
          rw [perform, done]
          rfl
        simp only [pushedBack, result]
        exact next
    | selectReading channel =>
      obtain ⟨errorString, same⟩ := selectReading_single single channel
      have told := ((grounded.told errorString).still (d := d) rfl).capped
      rw [← same] at told
      exact told
    | _ => exact absurd trivial onward

private theorem InUse.single (inUse : InUse d k) : d.reading.count = 1 := by
  induction inUse with
  | opened mode random possible opened small =>
    rw [(openWith_inv opened).2]
    rfl
  | call action before opened single small ih => exact single
  | hold ids before ih => exact ih

theorem InUse.grounded (inUse : InUse d k) : Grounded d k := by
  induction inUse with
  | opened mode random possible opened small => exact grounded_of_openWith random possible opened small
  | call action before opened single small ih => exact ih.after before.single action opened small
  | hold ids before ih => exact ih.beside rfl ih.unsent ih.isEmpty_mode

/-! Runs -/

def pushedBackAll (d : Device Medium.Memory) (k : Nat) : List Action → Nat
  | [] => k
  | action :: rest => (d.perform action).2.pushedBackAll (d.pushedBack k action) rest

/-- The device stays open with one read channel, and machine words tell the size of its contents. -/
def StaysInUse (d : Device Medium.Memory) : List Action → Prop
  | [] => True
  | action :: rest =>
    ((d.perform action).2.isOpen = true ∧ (d.perform action).2.reading.count = 1 ∧
      (d.perform action).2.medium.data.content.length ≤ Word.maxValue) ∧ (d.perform action).2.StaysInUse rest

instance decidableStaysInUse (d : Device Medium.Memory) : (actions : List Action) → Decidable (d.StaysInUse actions)
  | [] => inferInstanceAs (Decidable True)
  | action :: rest =>
    have := decidableStaysInUse (d.perform action).2 rest
    inferInstanceAs (Decidable ((_ = true ∧ _ = 1 ∧ _ ≤ _) ∧ _))

theorem InUse.performAll (inUse : InUse d k) (actions : List Action) (stays : d.StaysInUse actions) :
    InUse (d.performAll actions).2 (d.pushedBackAll k actions) := by
  induction actions generalizing d k with
  | nil => exact inUse
  | cons action rest ih =>
    obtain ⟨⟨opened, single, small⟩, later⟩ := stays
    exact ih (inUse.call action opened single small) later

end ByteFlow.Device
