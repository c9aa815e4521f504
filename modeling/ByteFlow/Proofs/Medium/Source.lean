import ByteFlow.Medium.Memory
import ByteFlow.Medium.Pipe
import ByteFlow.Proofs.ChunkQueue.Drain

/-! Media that deliver bytes in order.
A read gives some of the next bytes or fails and gives none. What more can be said depends on the
medium: a steady one gives a byte whenever there is one, and a prompt one all that is asked for. -/
namespace ByteFlow

/-- A medium whose reads deliver the bytes ahead of it. Without channels being chosen, reading and
moving keep a medium as `Kept` says. -/
class Medium.Source (σ : Type) [Medium σ] where
  /-- What the medium's operations rely on. -/
  Sound : σ → Prop
  /-- The bytes still to be delivered. -/
  ahead : σ → List UInt8
  /-- What stands at the places of a random-access medium. -/
  content : σ → List UInt8
  /-- Where a random-access medium stands. -/
  place : σ → Nat
  /-- Every read for a byte gives one as long as there are any, and none fails. -/
  Steady : σ → Prop
  /-- Every read gives all the bytes asked for, as far as there are any. -/
  Prompt : σ → Prop
  Kept : σ → σ → Prop
  kept_refl (m : σ) : Kept m m
  kept_trans {a b c : σ} : Kept a b → Kept b c → Kept a c
  isSequential_of_kept {a b : σ} : Kept a b → Medium.isSequential b = Medium.isSequential a
  content_of_kept {a b : σ} : Kept a b → Medium.isSequential a = false → content b = content a
  steady_of_kept {a b : σ} : Kept a b → (Steady b ↔ Steady a)
  prompt_of_kept {a b : σ} : Kept a b → (Prompt b ↔ Prompt a)
  steady_of_prompt {m : σ} : Prompt m → Steady m
  ahead_eq {m : σ} : Medium.isSequential m = false → ahead m = (content m).drop (place m)
  size_eq {m : σ} : Medium.isSequential m = false → Medium.size m = (content m).length
  read_spec (held : List StorageId) {m : σ} (n : Nat) : Sound m →
    (∃ bytes m', Medium.read held m n = (.ok ⟨bytes, bytes.length⟩, m') ∧ bytes.length ≤ n ∧
      ahead m = bytes ++ ahead m' ∧
      (Medium.isSequential m = false → place m' = place m + bytes.length) ∧ Sound m' ∧ Kept m m' ∧
      (Steady m → 0 < n → ahead m ≠ [] → bytes ≠ []) ∧ (Prompt m → bytes = (ahead m).take n)) ∨
    ∃ e m', Medium.read held m n = (.error e, m') ∧ ahead m' = ahead m ∧
      (Medium.isSequential m = false → place m' = place m) ∧ Sound m' ∧ Kept m m' ∧ ¬ Steady m
  seek_spec (held : List StorageId) {m : σ} (p : Nat) : Sound m → Medium.isSequential m = false →
    p ≤ (content m).length →
    ∃ m', Medium.seek held m p = (.ok (), m') ∧ place m' = p ∧ Sound m' ∧ Kept m m'

namespace Medium

/-- Memory gives what is asked for from its cursor on. -/
instance : Source Memory where
  Sound _ := True
  ahead m := m.data.content.drop m.cursor
  content m := m.data.content
  place m := m.cursor
  Steady _ := True
  Prompt _ := True
  Kept a b := b.data = a.data ∧ b.writable = a.writable
  kept_refl _ := ⟨rfl, rfl⟩
  kept_trans first second := ⟨second.1.trans first.1, second.2.trans first.2⟩
  isSequential_of_kept _ := rfl
  content_of_kept kept _ := by rw [kept.1]
  steady_of_kept _ := Iff.rfl
  prompt_of_kept _ := Iff.rfl
  steady_of_prompt := id
  ahead_eq _ := rfl
  size_eq {m} _ := (Handle.length_content m.data).symm
  read_spec held m n _ := by
    refine .inl ⟨(m.data.content.drop m.cursor).take n, _, rfl, ?_, ?_, fun _ => rfl, trivial, ⟨rfl, rfl⟩,
      ?_, ?_⟩
    · exact List.length_take_le n _
    · dsimp only
      rw [← List.drop_drop, List.length_take]
      conv_lhs => rw [← List.take_append_drop n (m.data.content.drop m.cursor)]
      congr 1
      rw [List.drop_eq_drop_iff]
      omega
    · intro _ positive some none
      rw [List.take_eq_nil_iff] at none
      rcases none with zero | none
      · omega
      · exact some none
    · intro _
      rfl
  seek_spec held m p _ _ inside := by
    rw [Handle.length_content] at inside
    refine ⟨{ m with cursor := p }, ?_, rfl, trivial, rfl, rfl⟩
    exact if_pos inside

namespace Pipe

/-- What waits on the current channel. -/
def waiting (p : Pipe) : List UInt8 := ((p.incoming[p.readChannel]?).map ChunkQueue.toList).getD []

/-- Nothing but what waits on the current channel differs. -/
structure Apart (a b : Pipe) : Prop where
  written : b.written = a.written
  readChannel : b.readChannel = a.readChannel
  writeChannel : b.writeChannel = a.writeChannel
  readLimit : b.readLimit = a.readLimit
  writeLimit : b.writeLimit = a.writeLimit
  writeEndClosed : b.writeEndClosed = a.writeEndClosed
  others : ∀ channel, channel ≠ a.readChannel → b.incoming[channel]? = a.incoming[channel]?

theorem Apart.refl (p : Pipe) : Apart p p := ⟨rfl, rfl, rfl, rfl, rfl, rfl, fun _ _ => rfl⟩

theorem Apart.trans {a b c : Pipe} (first : Apart a b) (second : Apart b c) : Apart a c := by
  refine ⟨second.written.trans first.written, second.readChannel.trans first.readChannel,
    second.writeChannel.trans first.writeChannel, second.readLimit.trans first.readLimit,
    second.writeLimit.trans first.writeLimit, second.writeEndClosed.trans first.writeEndClosed, ?_⟩
  intro channel other
  rw [second.others channel (first.readChannel ▸ other), first.others channel other]

theorem read_spec {p : Pipe} (sound : ∀ q ∈ p.incoming, q.WellFormed) (n : Nat) :
    ∃ p', p.read n = (.ok ⟨p.waiting.take (capped p.readLimit n),
        (p.waiting.take (capped p.readLimit n)).length⟩, p') ∧
      p'.waiting = p.waiting.drop (capped p.readLimit n) ∧ (∀ q ∈ p'.incoming, q.WellFormed) ∧
      Apart p p' := by
  rw [read]
  cases found : p.incoming[p.readChannel]? with
  | none =>
    have none : p.waiting = [] := by rw [waiting, found]; rfl
    exact ⟨p, by rw [none]; simp, by rw [none]; simp, sound, .refl p⟩
  | some queue =>
    obtain ⟨inside, rfl⟩ := List.getElem?_eq_some_iff.mp found
    obtain ⟨taken, wf, left, -⟩ := ChunkQueue.read_spec (sound _ (List.getElem_mem inside))
      (capped p.readLimit n)
    have all : p.waiting = p.incoming[p.readChannel].toList := by rw [waiting, found]; rfl
    rw [all, ← taken, ← left]
    dsimp only
    generalize p.incoming[p.readChannel].read (capped p.readLimit n) = result at wf
    refine ⟨{ p with incoming := p.incoming.set p.readChannel result.2 }, rfl, ?_, fun q member => ?_,
      ⟨rfl, rfl, rfl, rfl, rfl, rfl, ?_⟩⟩
    · simp [waiting, inside]
    · rcases List.mem_or_eq_of_mem_set member with old | new
      · exact sound q old
      · exact new ▸ wf
    · intro channel other
      exact List.getElem?_set_ne (Ne.symm other)

theorem capped_le (limit : Option Nat) (n : Nat) : capped limit n ≤ n := by
  cases limit with
  | none => exact Nat.le_refl n
  | some most => exact Nat.min_le_right most n

theorem capped_pos {limit : Option Nat} (some : limit ≠ Option.some 0) {n : Nat} (positive : 0 < n) :
    0 < capped limit n := by
  cases limit with
  | none => exact positive
  | some most =>
    have : most ≠ 0 := fun zero => some (zero ▸ rfl)
    rw [capped]
    omega

/-- A read gives what waits, up to the limit. -/
private theorem read_source (held : List StorageId) {p : Pipe} (n : Nat) (sound : ∀ q ∈ p.incoming, q.WellFormed) :
    ∃ bytes p', Medium.read held p n = (.ok ⟨bytes, bytes.length⟩, p') ∧ bytes.length ≤ n ∧
      p.waiting = bytes ++ p'.waiting ∧ (∀ q ∈ p'.incoming, q.WellFormed) ∧ Apart p p' ∧
      (p.readLimit ≠ some 0 → 0 < n → p.waiting ≠ [] → bytes ≠ []) ∧
      (p.readLimit = none → bytes = p.waiting.take n) := by
  obtain ⟨p', read, left, sound', apart⟩ := Pipe.read_spec sound n
  refine ⟨_, p', read, Nat.le_trans (List.length_take_le ..) (capped_le ..), ?_, sound', apart, ?_, ?_⟩
  · rw [left, List.take_append_drop]
  · intro some positive some_waiting none
    rw [List.take_eq_nil_iff] at none
    rcases none with zero | none
    · exact Nat.ne_of_gt (capped_pos some positive) zero
    · exact some_waiting none
  · intro unlimited
    rw [unlimited]
    rfl

end Pipe

/-- A pipe gives what waits on its current channel, up to its limit. -/
instance : Source Pipe where
  Sound p := ∀ q ∈ p.incoming, q.WellFormed
  ahead p := p.waiting
  content _ := []
  place _ := 0
  Steady p := p.readLimit ≠ some 0
  Prompt p := p.readLimit = none
  Kept := Pipe.Apart
  kept_refl := Pipe.Apart.refl
  kept_trans := Pipe.Apart.trans
  isSequential_of_kept _ := rfl
  content_of_kept _ _ := rfl
  steady_of_kept kept := by rw [kept.readLimit]
  prompt_of_kept kept := by rw [kept.readLimit]
  steady_of_prompt prompt := by
    rw [prompt]
    exact (Option.some_ne_none 0).symm
  ahead_eq random := absurd random.symm Bool.false_ne_true
  size_eq random := absurd random.symm Bool.false_ne_true
  read_spec held p n sound := by
    obtain ⟨bytes, p', read, few, ahead, sound', apart, steady, prompt⟩ := Pipe.read_source held n sound
    exact .inl ⟨bytes, p', read, few, ahead, fun random => absurd random.symm Bool.false_ne_true, sound', apart, steady, prompt⟩
  seek_spec _ _ _ _ random := absurd random.symm Bool.false_ne_true

end Medium

end ByteFlow
