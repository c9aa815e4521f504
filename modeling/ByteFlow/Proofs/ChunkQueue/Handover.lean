import ByteFlow.Proofs.ChunkQueue.Representation
import ByteFlow.Proofs.Handle.Sharing
import Mathlib.Data.List.Forall2

/-! Handing handles over.
A handle that is appended to a drained queue becomes a chunk as it is, and so does each one behind it. As long as
nothing but whole chunks is read, the chunks are the handles that wait, and the oldest one comes out uncopied. -/
namespace ByteFlow

/-- The handle `h` shows what `b` shows, in the same place of the same storage. -/
structure Handle.Uncopied (b h : Handle) : Prop where
  content : h.content = b.content
  shares : h.sharesWith b = true
  place : h.storage = b.storage ∧ h.start = b.start ∧ h.length = b.length

private theorem Handle.uncopied_of_place {b h : Handle} (some : 0 < b.length) (storage : h.storage = b.storage)
    (start : h.start = b.start)
    (length : h.length = b.length) : b.Uncopied h := by
  refine ⟨?_, sharesWith_of_storage some storage, storage, start, length⟩
  rw [content, content, storage, start, length]

private theorem Handle.resize_self (held : List StorageId) (h : Handle) : h.resize held h.length = h := by
  simp [resize, resizeWith]

private theorem Handle.left_uncopied {b : Handle} (some : 0 < b.length) : b.Uncopied (b.left b.length) := by
  apply uncopied_of_place some <;> simp [left, view, Nat.ne_of_gt some]

private theorem Handle.mid_uncopied {b : Handle} (some : 0 < b.length) : b.Uncopied (b.mid 0 none) := by
  apply uncopied_of_place some <;> simp [mid, view, some, Nat.ne_of_gt some]

private theorem Handle.Uncopied.trans {a b c : Handle} (first : a.Uncopied b) (second : b.Uncopied c)
    (some : 0 < a.length) :
    a.Uncopied c :=
  uncopied_of_place some (second.place.1.trans first.place.1) (second.place.2.1.trans first.place.2.1)
    (second.place.2.2.trans first.place.2.2)

/-- What is taken with a handle: nothing if it is empty. -/
def Handle.taken (h : Handle) : List Handle := if h.isEmpty then [] else [h]

theorem Handle.Uncopied.taken {b h : Handle} (uncopied : b.Uncopied h) (some : 0 < b.length) : h.taken = [h] := by
  have length := uncopied.place.2.2
  simp [Handle.taken, isEmpty, length, Nat.ne_of_gt some]

/-! What is handed over -/

/-- What a step of a hand-over does: it gives a handle, takes the oldest one that waits as a chunk or by its length,
or is no such step. -/
inductive Role where
  | give (b : Handle)
  | takeChunk
  | takeBytes (n : Nat)
  | other

/-- The steps give handles that are not empty and take by its length only what waits. -/
def HandsOver : List Handle → List Role → Prop
  | _, [] => True
  | unread, .give b :: rest => 0 < b.length ∧ HandsOver (unread ++ [b]) rest
  | unread, .takeChunk :: rest => HandsOver unread.tail rest
  | unread, .takeBytes n :: rest => unread.head?.map Handle.length = some n ∧ HandsOver unread.tail rest
  | _, .other :: _ => False

instance decidableHandsOver : (unread : List Handle) → (roles : List Role) → Decidable (HandsOver unread roles)
  | _, [] => inferInstanceAs (Decidable True)
  | unread, .give b :: rest =>
    have := decidableHandsOver (unread ++ [b]) rest
    inferInstanceAs (Decidable (0 < b.length ∧ _))
  | unread, .takeChunk :: rest => decidableHandsOver unread.tail rest
  | unread, .takeBytes n :: rest =>
    have := decidableHandsOver unread.tail rest
    inferInstanceAs (Decidable (_ = some n ∧ _))
  | _, .other :: _ => inferInstanceAs (Decidable False)

/-- The handles that steps give, in order. -/
def given (roles : List Role) : List Handle :=
  roles.filterMap fun
    | .give b => some b
    | _ => none

/-- With these handles waiting, a step takes `out` and leaves `left` waiting. -/
inductive Hands : List Handle → Role → List Handle → List Handle → Prop
  | give {unread : List Handle} (b : Handle) : Hands unread (.give b) [] (unread ++ [b])
  | nothing : Hands [] .takeChunk [] []
  | chunk {b h : Handle} {unread : List Handle} : b.Uncopied h → Hands (b :: unread) .takeChunk [h] unread
  | bytes {b h : Handle} {unread : List Handle} : b.Uncopied h → Hands (b :: unread) (.takeBytes b.length) [h] unread

/-- The same of steps one after the other, with what each of them takes. -/
inductive HandsAll : List Handle → List Role → List (List Handle) → List Handle → Prop
  | nil {unread : List Handle} : HandsAll unread [] [] unread
  | cons {unread mid left : List Handle} {role : Role} {roles : List Role} {out : List Handle} {more : List (List Handle)} :
      Hands unread role out mid → HandsAll mid roles more left → HandsAll unread (role :: roles) (out :: more) left

private theorem Hands.inTurn {unread left out : List Handle} {role : Role} (hands : Hands unread role out left) :
    ∃ first, unread ++ given [role] = first ++ left ∧ List.Forall₂ Handle.Uncopied first out := by
  cases hands with
  | give b => exact ⟨[], rfl, .nil⟩
  | nothing => exact ⟨[], rfl, .nil⟩
  | @chunk b h unread uncopied => exact ⟨[b], List.append_nil _, .cons uncopied .nil⟩
  | @bytes b h unread uncopied => exact ⟨[b], List.append_nil _, .cons uncopied .nil⟩

/-- The steps that follow hand over what is left. -/
theorem HandsOver.rest {unread left out : List Handle} {role : Role} {roles : List Role}
    (legal : HandsOver unread (role :: roles))
    (hands : Hands unread role out left) : HandsOver left roles := by
  cases hands with
  | give b => exact legal.2
  | nothing => exact legal
  | chunk uncopied => exact legal
  | bytes uncopied => exact legal.2

/-- What waited and what was given come out in turn, and what did not come out waits. -/
private theorem HandsAll.inTurn {unread left : List Handle} {roles : List Role} {outs : List (List Handle)}
    (hands : HandsAll unread roles outs left) :
    ∃ first, unread ++ given roles = first ++ left ∧ List.Forall₂ Handle.Uncopied first outs.flatten := by
  induction hands with
  | @nil unread => exact ⟨[], List.append_nil _, .nil⟩
  | @cons unread mid left role roles out more step rest ih =>
    obtain ⟨first, all, same⟩ := step.inTurn
    obtain ⟨second, all', same'⟩ := ih
    have split : given (role :: roles) = given [role] ++ given roles := by
      rw [given, given, given, ← List.filterMap_append, List.singleton_append]
    refine ⟨first ++ second, ?_, List.rel_append same same'⟩
    rw [split, ← List.append_assoc, all, List.append_assoc, all', List.append_assoc]

namespace ChunkQueue

/-- The queue holds these handles and nothing else, each as a chunk of its own. Without any it holds a spare chunk. -/
structure Carries (q : ChunkQueue) (unread : List Handle) : Prop where
  chunks : unread ≠ [] → q.chunks = unread
  spare : unread = [] → ∃ spare, q.chunks = [spare]
  head : q.head = 0
  tail : q.tail = (unread.getLast?.map Handle.length).getD 0
  length : q.length = (unread.flatMap Handle.content).length
  filled : ∀ b ∈ unread, 0 < b.length

/-- From a drained queue each step that takes a handle takes the oldest one that waits: together these are the first
ones given, in order and uncopied, and the queue holds the others. -/
def PassesOn (q : ChunkQueue) (roles : List Role) (outs : List (List Handle)) : Prop :=
  ∃ first left, HandsAll [] roles outs left ∧ given roles = first ++ left ∧
    List.Forall₂ Handle.Uncopied first outs.flatten ∧ q.Carries left

variable {q : ChunkQueue} {unread : List Handle} {b : Handle}

theorem Carries.passesOn {roles : List Role} {outs : List (List Handle)} (carries : q.Carries unread)
    (hands : HandsAll [] roles outs unread) : q.PassesOn roles outs := by
  obtain ⟨first, all, uncopied⟩ := hands.inTurn
  exact ⟨first, unread, hands, all, uncopied, carries⟩

theorem WellFormed.carries (wf : q.WellFormed) (drained : q.length = 0) : q.Carries [] := by
  obtain ⟨spare, chunks, head, tail⟩ := wf.of_length_eq_zero drained
  refine ⟨?_, fun _ => ⟨spare, chunks⟩, head, tail, drained, ?_⟩
  · intro some
    contradiction
  · intro b member
    cases member

/-- A handle that is appended takes the place of the spare chunk or stands behind the others. -/
theorem Carries.append (carries : q.Carries unread) (some : 0 < b.length) (held : List StorageId) :
    (q.append held b).Carries (unread ++ [b]) := by
  have nonempty : b.isEmpty = false := by simp [Handle.isEmpty, Nat.ne_of_gt some]
  have filled : ∀ c ∈ unread ++ [b], 0 < c.length := by
    intro c member
    rcases List.mem_append.mp member with old | new
    · exact carries.filled c old
    · rwa [List.mem_singleton.mp new]
  have chunks : (q.append held b).chunks = unread ++ [b] := by
    rcases List.eq_nil_or_concat unread with rfl | ⟨before, last, rfl⟩
    · obtain ⟨spare, only⟩ := carries.spare rfl
      have tail : q.tail = 0 := carries.tail
      simp [ChunkQueue.append, nonempty, tail, only]
    · rw [List.concat_eq_append] at carries ⊢
      have shape : q.chunks = before ++ [last] := carries.chunks (by simp)
      have tail : q.tail = last.length := by simp [carries.tail]
      -- The last chunk is data to its end, and to end it there is to leave it as it is.
      have reached : last.length ≠ 0 := Nat.ne_of_gt (carries.filled last (by simp))
      obtain ⟨others, same⟩ :=
        changeLast_concat (b.id?.toList ++ held) (fun held => Handle.resize held last.length) before last
      simp [ChunkQueue.append, nonempty, extendWith, tail, reached, shape, same, Handle.resize_self]
  refine ⟨fun _ => chunks, ?_, ?_, ?_, ?_, filled⟩
  · intro none
    simp at none
  · simp [ChunkQueue.append, nonempty, carries.head]
  · simp [ChunkQueue.append, nonempty]
  · simp [ChunkQueue.append, nonempty, carries.length]

theorem Carries.first (carries : q.Carries (b :: unread)) : 0 < b.length ∧ b.length ≤ q.length ∧ q.front = b.content := by
  have some : 0 < b.length := carries.filled b List.mem_cons_self
  have fits : b.length ≤ q.length := by simp [carries.length]
  have shape : q.chunks = b :: unread := carries.chunks (by simp)
  refine ⟨some, fits, ?_⟩
  cases unread with
  | nil =>
    have tail : q.tail = b.length := carries.tail
    rw [front_of_single shape (by omega), carries.head, tail]
    simp [List.take_of_length_le]
  | cons c rest =>
    rw [front_of_many shape (by omega), carries.head]
    simp

/-- The oldest handle comes out as it went in. -/
theorem Carries.readChunk (carries : q.Carries (b :: unread)) :
    b.Uncopied q.readChunk.1 ∧ q.readChunk.2.Carries unread := by
  obtain ⟨some, fits, -⟩ := carries.first
  have shape : q.chunks = b :: unread := carries.chunks (by simp)
  have stays : q.length ≠ 0 := by omega
  have total := carries.length
  have filled : ∀ c ∈ unread, 0 < c.length := fun c member => carries.filled c (List.mem_cons_of_mem _ member)
  cases unread with
  | nil =>
    have tail : q.tail = b.length := carries.tail
    have cut := Handle.left_uncopied some
    have out := cut.trans (Handle.mid_uncopied (cut.place.2.2.symm ▸ some)) some
    have result : q.readChunk = ((b.left b.length).mid 0 none,
        ⟨[Handle.empty], 0, 0, q.length - ((b.left b.length).mid 0 none).length, q.chunkSize⟩) := by
      simp [ChunkQueue.readChunk, shape, stays, tail, carries.head]
    rw [result]
    refine ⟨out, ?_, fun _ => ⟨_, rfl⟩, rfl, rfl, ?_, filled⟩
    · intro some
      contradiction
    · simp [total, out.place.2.2]
  | cons c rest =>
    have out := Handle.mid_uncopied some
    have result : q.readChunk = (b.mid 0 none,
        { q with chunks := c :: rest, head := 0, length := q.length - (b.mid 0 none).length }) := by
      simp [ChunkQueue.readChunk, shape, stays, carries.head]
    rw [result]
    refine ⟨out, fun _ => rfl, ?_, rfl, ?_, ?_, filled⟩
    · intro none
      cases none
    · simp [carries.tail]
    · simp [total, out.place.2.2]

private theorem Carries.readChunk_nil (carries : q.Carries []) : q.readChunk = (Handle.empty, q) := by
  obtain ⟨spare, only⟩ := carries.spare rfl
  have none : q.length = 0 := carries.length
  simp [ChunkQueue.readChunk, only, none]

private theorem Carries.readHandle (carries : q.Carries (b :: unread)) (held : List StorageId) :
    q.readHandle held b.length = q.readChunk := by
  obtain ⟨some, fits, front⟩ := carries.first
  simp [ChunkQueue.readHandle, front, Nat.min_eq_left fits, Nat.ne_of_gt some]

/-- What an action does in a hand-over. -/
def Action.role : Action → Role
  | .append b _ => .give b
  | .readChunk => .takeChunk
  | .readHandle n => .takeBytes n
  | _ => .other

/-- The handle that is taken with an answer. -/
def Reply.taken : Reply → List Handle
  | .handle h => h.taken
  | _ => []

namespace Session

private theorem step_readChunk_hands (s : Session) (carries : s.queue.Carries (b :: unread)) :
    ∃ h, b.Uncopied h ∧ (s.step .readChunk).1.taken = [h] ∧ (s.step .readChunk).2.queue.Carries unread := by
  obtain ⟨uncopied, left⟩ := carries.readChunk
  exact ⟨s.queue.readChunk.1, uncopied, uncopied.taken carries.first.1, left⟩

private theorem step_hands (s : Session) (carries : s.queue.Carries unread) (action : Action) (rest : List Role)
    (legal : HandsOver unread (action.role :: rest)) :
    ∃ left, Hands unread action.role (s.step action).1.taken left ∧ (s.step action).2.queue.Carries left := by
  cases action with
  | append b keep =>
    obtain ⟨some, -⟩ := legal
    exact ⟨unread ++ [b], .give b, by cases keep <;> exact carries.append some _⟩
  | readChunk =>
    cases unread with
    | nil =>
      have same : s.step .readChunk = (.handle Handle.empty, s) := by simp [step, withQueue, carries.readChunk_nil]
      rw [same]
      exact ⟨[], .nothing, carries⟩
    | cons b unread =>
      obtain ⟨h, uncopied, taken, left⟩ := s.step_readChunk_hands carries
      rw [taken]
      exact ⟨unread, .chunk uncopied, left⟩
  | readHandle n =>
    cases unread with
    | nil => cases legal.1
    | cons b unread =>
      obtain ⟨whole, -⟩ := legal
      obtain rfl : b.length = n := Option.some.inj whole
      have same : s.step (.readHandle b.length) = s.step .readChunk := by simp [step, carries.readHandle]
      obtain ⟨h, uncopied, taken, left⟩ := s.step_readChunk_hands carries
      rw [same, taken]
      exact ⟨unread, .bytes uncopied, left⟩
  | _ => cases legal

private theorem run_hands (s : Session) (carries : s.queue.Carries unread) (actions : List Action)
    (legal : HandsOver unread (actions.map Action.role)) :
    ∃ left, HandsAll unread (actions.map Action.role) ((s.run actions).1.map Reply.taken) left ∧
      (s.run actions).2.queue.Carries left := by
  induction actions generalizing s unread with
  | nil => exact ⟨unread, .nil, carries⟩
  | cons action actions ih =>
    obtain ⟨mid, hands, carries'⟩ := step_hands s carries action _ legal
    obtain ⟨left, rest, last⟩ := ih (s.step action).2 carries' (legal.rest hands)
    exact ⟨left, .cons hands rest, last⟩

/-- Whatever was done with a queue before, once it is drained it passes on handles in turn. -/
theorem run_passesOn (chunkSize : Nat) (script actions : List Action)
    (drained : ((start chunkSize).run script).2.queue.length = 0) (legal : HandsOver [] (actions.map Action.role)) :
    (((start chunkSize).run script).2.run actions).2.queue.PassesOn (actions.map Action.role)
      ((((start chunkSize).run script).2.run actions).1.map Reply.taken) := by
  have wf := (run_wellFormed _ (wellFormed_start chunkSize) script).queue
  obtain ⟨left, hands, carries⟩ := run_hands _ (wf.carries drained) actions legal
  exact carries.passesOn hands

end Session

end ChunkQueue

end ByteFlow
