import ByteFlow.ChunkQueue.Session
import ByteFlow.Proofs.ChunkQueue.Query
import ByteFlow.Proofs.ChunkQueue.Supply

/-! A queue in use is a flat list of bytes in use.
The layout shows in two places only: how long a chunk read out is, and how far one block goes. -/
namespace ByteFlow.ChunkQueue

/-- The bytes of a queue and of the one saved from it. -/
structure Flat where
  bytes : List UInt8
  saved : List UInt8

/-- What an action answers on a list of bytes, and what it makes of them. -/
def Admits (s : List UInt8) : Action → Reply → List UInt8 → Prop
  | .reserve n byteAt, reply, t =>
    if n = 0 ∨ Word.requestLimit ≤ n then reply = .refused ∧ t = s
    else reply = .size n ∧ t = s ++ (List.range n).map byteAt
  | .reserveFront n byteAt, reply, t =>
    if n = 0 ∨ Word.requestLimit ≤ n then reply = .refused ∧ t = s
    else reply = .size n ∧ t = (List.range n).map byteAt ++ s
  | .free n, reply, t => reply = .done ∧ t = s.drop n
  | .chop n, reply, t => reply = .done ∧ t = s.take (s.length - n)
  | .append data _, reply, t => reply = .done ∧ t = s ++ data.content
  | .appendBytes bytes, reply, t => reply = .done ∧ t = s ++ bytes
  | .put b, reply, t => reply = .done ∧ t = s ++ [b]
  | .get, reply, t => reply = .byte s.head? ∧ t = s.tail
  | .unget b, reply, t => reply = .done ∧ t = b :: s
  | .read n, reply, t => reply = .bytes (s.take n) ∧ t = s.drop n
  | .peek n place, reply, t => reply = .bytes ((s.drop place).take n) ∧ t = s
  | .readLine room, reply, t =>
    if room < 2 then reply = .refused ∧ t = s
    else reply = .bytes ((Newline.firstLine s).take (room - 1)) ∧
      t = s.drop ((Newline.firstLine s).take (room - 1)).length
  | .readChunk, reply, t =>
    ∃ h, reply = .handle h ∧ s = h.content ++ t ∧ (h.content = [] → s = [])
  | .readHandle n, reply, t => ∃ h, reply = .handle h ∧ h.content = s.take n ∧ t = s.drop n
  | .skip n, reply, t => reply = .size (min n s.length) ∧ t = s.drop n
  | .indexOf b room start, reply, t =>
    reply = .place ((((s.drop start).take room).findIdx? (· == b)).map (start + ·)) ∧ t = s
  | .hasLine, reply, t => reply = .flag (s.contains Byte.lineFeed) ∧ t = s
  | .runAt place, reply, t =>
    ∃ run, reply = .bytes run ∧ run <+: s.drop place ∧ (run = [] ↔ s.length ≤ place) ∧ t = s
  | .front, reply, t => ∃ run, reply = .bytes run ∧ run <+: s ∧ (run = [] ↔ s = []) ∧ t = s
  | .clear, reply, t => reply = .done ∧ t = []
  | .setChunkSize n, reply, t => reply = .size n ∧ t = s
  | .save, _, _ => False
  | .swap, _, _ => False

/-- One action on flat lists. -/
def Flat.Step (f : Flat) (action : Action) (reply : Reply) (g : Flat) : Prop :=
  match action with
  | .save => reply = .done ∧ g = ⟨f.bytes, f.bytes⟩
  | .swap => reply = .done ∧ g = ⟨f.saved, f.bytes⟩
  | action => Admits f.bytes action reply g.bytes ∧ g.saved = f.saved

/-- Actions on flat lists one after the other, with their answers. -/
inductive Flat.Run : Flat → List Action → List Reply → Flat → Prop where
  | nil (f : Flat) : Run f [] [] f
  | cons {f g h : Flat} {action : Action} {reply : Reply} {actions : List Action} {replies : List Reply}
      (step : f.Step action reply g) (rest : Run g actions replies h) :
      Run f (action :: actions) (reply :: replies) h

/-- How many bytes an action queues, unless it asks for too many. -/
def Action.supplies : Action → Nat
  | .reserve n _ | .reserveFront n _ => if n < Word.requestLimit then n else 0
  | .append data _ => data.length
  | .appendBytes bytes => bytes.length
  | .put _ | .unget _ => 1
  | _ => 0

namespace Session

/-- Actions one after the other, with their answers. -/
def run (s : Session) : List Action → List Reply × Session
  | [] => ([], s)
  | action :: actions =>
    let (reply, s) := s.step action
    let (replies, s) := run s actions
    (reply :: replies, s)

/-- No action on the way makes the queue as long as the limit of requests. -/
def StaysSmall (s : Session) : List Action → Prop
  | [] => True
  | action :: actions =>
    s.queue.length + action.supplies < Word.requestLimit ∧ StaysSmall (s.step action).2 actions

instance decidableStaysSmall (s : Session) (actions : List Action) : Decidable (s.StaysSmall actions) :=
  match actions with
  | [] => .isTrue trivial
  | action :: actions =>
    have := decidableStaysSmall (s.step action).2 actions
    inferInstanceAs (Decidable (_ ∧ _))

def flat (s : Session) : Flat := ⟨s.queue.toList, s.saved.toList⟩

/-- Both queues of a session are well-formed. -/
structure WellFormed (s : Session) : Prop where
  queue : s.queue.WellFormed
  saved : s.saved.WellFormed

theorem wellFormed_start (chunkSize : Nat) : (start chunkSize).WellFormed :=
  ⟨wellFormed_withChunkSize chunkSize, wellFormed_withChunkSize chunkSize⟩

private theorem append_step (s : Session) (wf : s.WellFormed) (data : Handle) (keep : Bool) :
    s.flat.Step (.append data keep) (s.step (.append data keep)).1 (s.step (.append data keep)).2.flat ∧
      (s.step (.append data keep)).2.WellFormed := by
  cases keep with
  | false =>
    obtain ⟨wf_q, bytes⟩ := append_spec wf.queue s.outside data
    exact ⟨⟨⟨rfl, bytes⟩, rfl⟩, wf_q, wf.saved⟩
  | true =>
    obtain ⟨wf_q, bytes⟩ := append_spec wf.queue ({ s with kept := s.kept ++ [data] } : Session).outside data
    exact ⟨⟨⟨rfl, bytes⟩, rfl⟩, wf_q, wf.saved⟩

private theorem reserve_step (s : Session) (wf : s.WellFormed) (n : Nat) (byteAt : Nat → UInt8) :
    s.flat.Step (.reserve n byteAt) (s.step (.reserve n byteAt)).1 (s.step (.reserve n byteAt)).2.flat ∧
      (s.step (.reserve n byteAt)).2.WellFormed := by
  have refused := reserve?_eq_none_iff s.queue s.outside n
  simp only [Flat.Step, Admits, step]
  cases granted : s.queue.reserve? s.outside n with
  | none =>
    rw [if_pos (refused.mp granted)]
    exact ⟨⟨⟨rfl, rfl⟩, rfl⟩, wf⟩
  | some q =>
    rw [if_neg (by rw [← refused, granted]; simp)]
    have size : ((List.range n).map byteAt).length = n := by simp
    obtain ⟨wf_q, bytes⟩ := fill_reserve?_spec wf.queue s.outside s.outside
      ((List.range n).map byteAt) (by rw [size]; exact granted)
    exact ⟨⟨⟨rfl, bytes⟩, rfl⟩, wf_q, wf.saved⟩

private theorem reserveFront_step (s : Session) (wf : s.WellFormed) (n : Nat) (byteAt : Nat → UInt8) :
    s.flat.Step (.reserveFront n byteAt) (s.step (.reserveFront n byteAt)).1
        (s.step (.reserveFront n byteAt)).2.flat ∧
      (s.step (.reserveFront n byteAt)).2.WellFormed := by
  have refused := reserveFront?_eq_none_iff s.queue s.outside n
  simp only [Flat.Step, Admits, step]
  cases granted : s.queue.reserveFront? s.outside n with
  | none =>
    rw [if_pos (refused.mp granted)]
    exact ⟨⟨⟨rfl, rfl⟩, rfl⟩, wf⟩
  | some q =>
    rw [if_neg (by rw [← refused, granted]; simp)]
    have size : ((List.range n).map byteAt).length = n := by simp
    obtain ⟨wf_q, bytes⟩ := fillFront_reserveFront?_spec wf.queue s.outside s.outside
      ((List.range n).map byteAt) (by rw [size]; exact granted)
    exact ⟨⟨⟨rfl, bytes⟩, rfl⟩, wf_q, wf.saved⟩

private theorem readLine_step (s : Session) (wf : s.WellFormed) (room : Nat)
    (small : s.queue.length ≤ Word.maxValue) :
    s.flat.Step (.readLine room) (s.step (.readLine room)).1 (s.step (.readLine room)).2.flat ∧
      (s.step (.readLine room)).2.WellFormed := by
  have line := readLine?_spec wf.queue room small
  simp only [Flat.Step, Admits, step]
  split at line
  · next cramped =>
    rw [line, if_pos cramped]
    exact ⟨⟨⟨rfl, rfl⟩, rfl⟩, wf⟩
  · next roomy =>
    obtain ⟨r, found, wf_r, left⟩ := line
    rw [found, if_neg roomy]
    exact ⟨⟨⟨rfl, left⟩, rfl⟩, wf_r, wf.saved⟩

/-- Each action does on the queue what it does on the list, whatever the chunks are. -/
private theorem step_refines (s : Session) (wf : s.WellFormed) (action : Action)
    (small : s.queue.length + action.supplies < Word.requestLimit) :
    s.flat.Step action (s.step action).1 (s.step action).2.flat ∧ (s.step action).2.WellFormed := by
  have bounded : s.queue.length ≤ Word.maxValue := by
    have : Word.requestLimit ≤ Word.maxValue := by decide
    omega
  cases action with
  | reserve n byteAt => exact reserve_step s wf n byteAt
  | reserveFront n byteAt => exact reserveFront_step s wf n byteAt
  | free n =>
    obtain ⟨wf_q, bytes, -⟩ := free_spec wf.queue n
    exact ⟨⟨⟨rfl, bytes⟩, rfl⟩, wf_q, wf.saved⟩
  | chop n =>
    obtain ⟨wf_q, bytes, -⟩ := chop_spec wf.queue n
    rw [wf.queue.counted] at bytes
    exact ⟨⟨⟨rfl, bytes⟩, rfl⟩, wf_q, wf.saved⟩
  | append data keep => exact append_step s wf data keep
  | appendBytes bytes =>
    obtain ⟨wf_q, appended⟩ := appendBytes_spec wf.queue s.outside bytes
    rw [if_pos (by simp only [Action.supplies] at small; omega)] at appended
    exact ⟨⟨⟨rfl, appended⟩, rfl⟩, wf_q, wf.saved⟩
  | put b =>
    obtain ⟨wf_q, bytes⟩ := put_spec wf.queue s.outside b
    exact ⟨⟨⟨rfl, bytes⟩, rfl⟩, wf_q, wf.saved⟩
  | get =>
    obtain ⟨first, wf_q, bytes⟩ := get_spec wf.queue
    rw [List.drop_one] at bytes
    exact ⟨⟨⟨congrArg Reply.byte first, bytes⟩, rfl⟩, wf_q, wf.saved⟩
  | unget b =>
    obtain ⟨wf_q, bytes⟩ := unget_spec wf.queue s.outside b
    exact ⟨⟨⟨rfl, bytes⟩, rfl⟩, wf_q, wf.saved⟩
  | read n =>
    obtain ⟨taken, wf_q, left, -⟩ := read_spec wf.queue n
    exact ⟨⟨⟨congrArg Reply.bytes taken, left⟩, rfl⟩, wf_q, wf.saved⟩
  | peek n place => exact ⟨⟨⟨congrArg Reply.bytes (peek_eq s.queue n place), rfl⟩, rfl⟩, wf⟩
  | readLine room => exact readLine_step s wf room bounded
  | readChunk =>
    obtain ⟨shown, wf_q, joined, -⟩ := readChunk_spec wf.queue
    refine ⟨⟨⟨_, rfl, joined, fun empty => ?_⟩, rfl⟩, wf_q, wf.saved⟩
    exact (front_eq_nil_iff wf.queue).mp (shown ▸ empty)
  | readHandle n =>
    obtain ⟨shown, wf_q, left⟩ := readHandle_spec wf.queue s.outside n
    exact ⟨⟨⟨_, rfl, shown, left⟩, rfl⟩, wf_q, wf.saved⟩
  | skip n =>
    obtain ⟨count, wf_q, left⟩ := skip_spec wf.queue n
    exact ⟨⟨⟨congrArg Reply.size count, left⟩, rfl⟩, wf_q, wf.saved⟩
  | indexOf b room start =>
    exact ⟨⟨⟨congrArg Reply.place (indexOf_eq wf.queue b room start bounded), rfl⟩, rfl⟩, wf⟩
  | hasLine =>
    have found : s.queue.hasLine = s.queue.toList.contains Byte.lineFeed := by
      rw [Bool.eq_iff_iff, hasLine_iff wf.queue bounded, List.contains_iff_mem]
    exact ⟨⟨⟨congrArg Reply.flag found, rfl⟩, rfl⟩, wf⟩
  | runAt place =>
    exact ⟨⟨⟨_, rfl, runAt_prefix _ _, runAt_eq_nil_iff _ _, rfl⟩, rfl⟩, wf⟩
  | front => exact ⟨⟨⟨_, rfl, front_prefix _, front_eq_nil_iff wf.queue, rfl⟩, rfl⟩, wf⟩
  | clear =>
    obtain ⟨wf_q, bytes⟩ := clear_spec s.queue
    exact ⟨⟨⟨rfl, bytes⟩, rfl⟩, wf_q, wf.saved⟩
  | setChunkSize n => exact ⟨⟨⟨rfl, rfl⟩, rfl⟩, wf.queue.setChunkSize n, wf.saved⟩
  | save => exact ⟨⟨rfl, rfl⟩, wf.queue, wf.queue⟩
  | swap => exact ⟨⟨rfl, rfl⟩, wf.saved, wf.queue⟩

private theorem run_refines (s : Session) (wf : s.WellFormed) (actions : List Action) (small : s.StaysSmall actions) :
    Flat.Run s.flat actions (s.run actions).1 (s.run actions).2.flat ∧ (s.run actions).2.WellFormed := by
  induction actions generalizing s with
  | nil => exact ⟨.nil _, wf⟩
  | cons action actions ih =>
    obtain ⟨stepped, wf_next⟩ := step_refines s wf action small.1
    obtain ⟨rest, wf_last⟩ := ih (s.step action).2 wf_next small.2
    exact ⟨.cons stepped rest, wf_last⟩

/-- A refused request leaves the session as it was. -/
private theorem step_of_refused (s : Session) (action : Action) (refused : (s.step action).1 = .refused) :
    (s.step action).2 = s := by
  cases action with
  | reserve n byteAt =>
    simp only [step, withQueue] at refused ⊢
    split at refused
    · cases refused
    · rfl
  | reserveFront n byteAt =>
    simp only [step, withQueue] at refused ⊢
    split at refused
    · cases refused
    · rfl
  | readLine room =>
    simp only [step, withQueue] at refused ⊢
    split at refused
    · cases refused
    · rfl
  | _ => cases refused

/-- From an empty queue of any chunk size, every run of actions answers as a run on a flat list does,
and the queue tells the length of that list. Requests are refused, without an effect, just where the
list refuses them. -/
theorem queue_refines_list (chunkSize : Nat) (actions : List Action)
    (small : (start chunkSize).StaysSmall actions) :
    Flat.Run ⟨[], []⟩ actions ((start chunkSize).run actions).1 ((start chunkSize).run actions).2.flat ∧
      ((start chunkSize).run actions).2.queue.length =
        ((start chunkSize).run actions).2.queue.toList.length ∧
      (((start chunkSize).run actions).2.queue.isEmpty = true ↔
        ((start chunkSize).run actions).2.queue.length = 0) ∧
      ∀ action, (((start chunkSize).run actions).2.step action).1 = .refused →
        (((start chunkSize).run actions).2.step action).2 = ((start chunkSize).run actions).2 := by
  obtain ⟨refined, wf⟩ := run_refines (start chunkSize) (wellFormed_start chunkSize) actions small
  have empty : (start chunkSize).flat = ⟨[], []⟩ := by
    simp [flat, start]
  rw [empty] at refined
  exact ⟨refined, wf.queue.counted, by simp [isEmpty], fun action => step_of_refused _ action⟩

/-- Both ends used, a shared handle appended, another chunk size set and the saved queue swapped in. -/
def mixedActions : List Action :=
  [.reserve 2 (·.toUInt8), .save, .append (Handle.ofFixed [] [7, 8, 9]) true,
    .reserveFront 2 (·.toUInt8), .unget 5, .free 2, .setChunkSize 1, .chop 1, .swap, .put 13,
    .appendBytes [10, 11], .readLine 4, .readHandle 1, .reserve 0 (·.toUInt8)]

theorem queue_refines_list_three :
    (start 3).StaysSmall mixedActions ∧
      Flat.Run ⟨[], []⟩ mixedActions ((start 3).run mixedActions).1 ((start 3).run mixedActions).2.flat :=
  have small : (start 3).StaysSmall mixedActions := by decide +kernel
  ⟨small, (queue_refines_list 3 mixedActions small).1⟩

end Session

end ByteFlow.ChunkQueue
