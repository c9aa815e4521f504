import ByteFlow.Device.Session
import ByteFlow.Proofs.Device.Line
import ByteFlow.Proofs.Medium.Pipe

/-! Calls one after the other on a device that was just opened. -/
namespace ByteFlow
open Medium

/-- The modes for reading, of which the writable ones keep what is there. -/
def OpenMode.forReading (writable text unbuffered : Bool) : OpenMode :=
  { OpenMode.readOnly with writable := writable, text := text, unbuffered := unbuffered }

theorem OpenMode.normalized_forReading (writable text unbuffered : Bool) :
    (forReading writable text unbuffered).normalized = forReading writable text unbuffered := by
  cases writable <;> rfl

namespace Device

/-- The bytes in a reply. -/
def Reply.content : Reply → List UInt8
  | .handle h => h.content
  | .bytes b => b
  | .byte b => b.toList
  | .done | .size _ | .flag _ => []

/-- How many bytes a call asks for, if it is one that reads some. -/
def Action.asks : Action → Option Nat
  | .read n | .readLine n => some n
  | .readInto buffer => some buffer.length
  | .getByte => some 1
  | _ => none

variable {σ : Type} [Medium σ]

def performAll (d : Device σ) : List Action → List (Except Failure Reply) × Device σ
  | [] => ([], d)
  | action :: rest =>
    let next := (d.perform action).2.performAll rest
    ((d.perform action).1 :: next.1, next.2)

/-! Opening -/

theorem bufferSize_normalize {config : Config} (possible : config.bufferSize < Word.requestLimit) :
    config.normalize.bufferSize < Word.requestLimit := by
  have : 1 < Word.requestLimit := by decide
  rw [Config.normalize]
  dsimp only
  omega

variable [Source σ]

/-- A new device has what its medium has. -/
private theorem ofMedium_ready {m : σ} (sound : Source.Sound m)
    (random : Medium.isSequential m = false → Source.place m = 0 ∧ (Source.content m).length ≤ Word.maxValue)
    (config : Config) (mode : OpenMode) :
    Ready { Device.ofMedium m config with mode := mode } [] (Source.ahead m) := by
  refine ⟨⟨[], sound, rfl, ChunkQueue.wellFormed_withChunkSize _, ChunkQueue.toList_withChunkSize _, fun _ => rfl,
    fun kind => ?_⟩, rfl, trivial, Nat.two_pow_pos 64⟩
  obtain ⟨start, small⟩ := random kind
  have here : Source.ahead m = (Source.content m).drop 0 := by rw [Source.ahead_eq kind, start]
  exact ⟨here, Nat.zero_le _, small, start⟩

theorem open_memory (h : Handle) (config : Config) (writable text unbuffered : Bool)
    (small : h.content.length ≤ Word.maxValue) :
    ∃ d, (Device.ofMedium (Medium.Memory.ofHandle h) config).openWith (.forReading writable text unbuffered) = (.ok (), d) ∧
      d.Ready [] h.content ∧ d.readObstacle? = none ∧ d.mode = .forReading writable text unbuffered ∧
      d.config = config.normalize ∧ d.transaction = .idle ∧ d.pos = 0 ∧ d.sequential = false ∧
      d.medium = ⟨h, 0, writable⟩ := by
  have ready := ofMedium_ready (m := (⟨h, 0, writable⟩ : Medium.Memory)) trivial (fun _ => ⟨rfl, small⟩) config
    (.forReading writable text unbuffered)
  refine ⟨_, ?_, ready, ?_, rfl, rfl, rfl, rfl, rfl, rfl⟩
  · rw [openWith, OpenMode.normalized_forReading]
    rfl
  · cases writable <;> cases text <;> cases unbuffered <;> rfl

/-! Calls -/

variable {d e : Device σ} {before raw s t bytes : List UInt8}

omit [Medium σ] [Source σ] in
theorem isOpen_of_able (able : d.readObstacle? = none) : d.isOpen = true := by
  cases opened : d.isOpen with
  | true => rfl
  | false =>
    rw [readObstacle?, opened] at able
    cases able

theorem Delivers.imp {room : Nat} {p q : List UInt8 → List UInt8 → Prop} {result : Except Failure (List UInt8) × Device σ}
    (delivers : d.Delivers before s room p result) (implies : ∀ bytes t, p bytes t → q bytes t) :
    d.Delivers before s room q result := by
  obtain ⟨_ | bytes, e⟩ := result
  · exact delivers
  · obtain ⟨raw, t, portion, done, reads⟩ := delivers
    exact ⟨raw, t, portion, implies bytes t done, reads⟩

omit [Medium σ] [Source σ] in
theorem answer_map {α : Type} (f : α → Reply) (result : Except Failure α × Device σ) :
    ((answer f result).1.map Reply.content, (answer f result).2) =
      (result.1.map fun a => (f a).content, result.2) := by
  obtain ⟨_ | _, _⟩ := result <;> rfl

omit [Medium σ] [Source σ] in
theorem answer_bytes (result : Except Failure (List UInt8) × Device σ) :
    ((answer .bytes result).1.map Reply.content, (answer .bytes result).2) = result := by
  obtain ⟨_ | _, _⟩ := result <;> rfl

/-- Each call that asks for bytes gives the next ones. -/
private theorem perform_delivers (ready : d.Ready before s) (able : d.readObstacle? = none)
    (short : before.length + s.length ≤ Word.maxValue) (possible : d.config.bufferSize < Word.requestLimit)
    {action : Action} {n : Nat} (asks : action.asks = some n) (positive : 0 < n) :
    d.Delivers before s n (fun _ _ => True) ((d.perform action).1.map Reply.content, (d.perform action).2) := by
  cases action with
  | read k =>
    obtain rfl : k = n := by simpa [Action.asks] using asks
    rw [perform, answer_map]
    exact (read_delivers ready able k possible).imp fun _ _ _ => trivial
  | readLine k =>
    obtain rfl : k = n := by simpa [Action.asks] using asks
    have delivers := readLine_delivers ready able short possible k
    rw [if_neg (by omega)] at delivers
    rw [perform, answer_map]
    exact delivers.imp fun _ _ _ => trivial
  | readInto buffer =>
    obtain rfl : buffer.length = n := by simpa [Action.asks] using asks
    rw [perform, answer_bytes]
    exact (readInto_delivers ready able buffer possible).imp fun _ _ _ => trivial
  | getByte =>
    obtain rfl : 1 = n := by simpa [Action.asks] using asks
    rw [perform, answer_map]
    exact (getByte_delivers ready able possible).imp fun _ _ _ => trivial
  | _ => cases asks

/-- From a steady medium calls that each give the next bytes never fail, and give together what one call would give.
What a call may be asked for depends on what is to come. -/
theorem performAll_gives {p : List UInt8 → Action → Nat → Prop}
    (gives : ∀ {d : Device σ} {before s : List UInt8} {action : Action} {n : Nat}, d.Ready before s →
      d.readObstacle? = none → before.length + s.length ≤ Word.maxValue → d.config.bufferSize < Word.requestLimit →
      p s action n →
      d.Delivers before s n (fun _ _ => True) ((d.perform action).1.map Reply.content, (d.perform action).2))
    (ready : d.Ready before s) (able : d.readObstacle? = none) (short : before.length + s.length ≤ Word.maxValue)
    (possible : d.config.bufferSize < Word.requestLimit) (steady : Source.Steady d.medium) (actions : List Action)
    (calls : ∀ action ∈ actions, ∀ s, ∃ n, p s action n) :
    ∃ results raw t room, (d.performAll actions).1.map (Except.map Reply.content) = results.map .ok ∧
      d.Portion room s raw t results.flatten ∧
      List.Forall₂ (fun action bytes => ∃ s n, p s action n ∧ bytes.length ≤ n) actions results ∧
      ((∀ action ∈ actions, ∀ s n, p s action n → s ≠ [] → n ≠ 0) → [] ∈ results → t = []) ∧
      d.Reads (d.performAll actions).2 before raw t := by
  induction actions generalizing d before s with
  | nil =>
    obtain ⟨queued, has⟩ := ready.supplies
    exact ⟨[], [], s, 0, rfl, .none d s, .nil, fun _ nothing => absurd nothing List.not_mem_nil,
      ready.stays (.refl d) has rfl d.errorString⟩
  | cons action rest ih =>
    obtain ⟨n, asked⟩ := calls action List.mem_cons_self s
    have delivers := gives ready able short possible asked
    rw [performAll]
    dsimp only
    generalize d.perform action = result at delivers
    obtain ⟨failure | reply, e⟩ := result
    · exact absurd steady delivers.2
    · obtain ⟨raw, t, portion, -, reads⟩ := delivers
      have config : e.config = d.config := reads.kin.config
      have short' : (stay (d.keeps false) before raw).length + t.length ≤ Word.maxValue := by
        have := length_stay_le (d.keeps false) before raw
        rw [portion.split, List.length_append] at short
        omega
      obtain ⟨results, raw', u, more, ok, portion', fits, last, reads'⟩ := ih reads.ready
        (reads.readObstacle?.trans able) short' (by rwa [config]) (reads.steady_iff.mpr steady)
        fun action member => calls action (List.mem_cons_of_mem _ member)
      refine ⟨reply.content :: results, raw ++ raw', u, n + more, ?_, portion.append reads portion',
        .cons ⟨s, n, asked, portion.fits⟩ fits, ?_, reads.trans reads'⟩
      · rw [List.map_cons, List.map_cons, ok]
        rfl
      · intro wants nothing
        rcases List.mem_cons.mp nothing with now | later
        · have none : raw = [] := portion.empty_iff.mp now.symm
          have ended : s = [] := by
            by_contra left
            exact portion.steady steady (wants action List.mem_cons_self s n asked left) left none
          have all := portion.split
          rw [ended, none, List.nil_append, portion'.split] at all
          exact (List.append_eq_nil_iff.mp all.symm).2
        · exact last (fun other member => wants other (List.mem_cons_of_mem _ member)) later

/-- Calls that ask for some bytes give none only at the end. -/
theorem performAll_delivers (ready : d.Ready before s) (able : d.readObstacle? = none)
    (short : before.length + s.length ≤ Word.maxValue) (possible : d.config.bufferSize < Word.requestLimit)
    (steady : Source.Steady d.medium) (actions : List Action)
    (asks : ∀ action ∈ actions, ∃ n, action.asks = some n ∧ 0 < n) :
    ∃ results raw t room, (d.performAll actions).1.map (Except.map Reply.content) = results.map .ok ∧
      d.Portion room s raw t results.flatten ∧
      List.Forall₂ (fun action bytes => ∃ n, action.asks = some n ∧ bytes.length ≤ n) actions results ∧
      ([] ∈ results → t = []) ∧ d.Reads (d.performAll actions).2 before raw t := by
  obtain ⟨results, raw, t, room, ok, portion, fits, last, reads⟩ :=
    performAll_gives (p := fun _ action n => action.asks = some n ∧ 0 < n)
      (fun ready able short possible asked => perform_delivers ready able short possible asked.1 asked.2)
      ready able short possible steady actions fun action member _ => asks action member
  refine ⟨results, raw, t, room, ok, portion, fits.imp ?_, last fun _ _ _ n asked _ => Nat.ne_of_gt asked.2, reads⟩
  rintro action bytes ⟨-, n, ⟨asked, -⟩, few⟩
  exact ⟨n, asked, few⟩

end Device

namespace Medium.Pipe

/-- Hands handles to the first channel, whatever others hold at each time. -/
def feedAll (p : Pipe) (pieces : List (List StorageId × Handle)) : Pipe :=
  pieces.foldl (fun p piece => (p.feed piece.1 0 piece.2).2) p

/-- The pipe takes what it is fed on the first channel. -/
structure Fed (p q : Pipe) (data : List UInt8) : Prop where
  sound : Source.Sound q
  waiting : q.waiting = p.waiting ++ data
  readChannel : q.readChannel = 0
  readLimit : q.readLimit = p.readLimit
  writeEndClosed : q.writeEndClosed = false

private theorem feed_fed {p : Pipe} (sound : Source.Sound p) (channel : p.readChannel = 0)
    (closed : p.writeEndClosed = false)
    (held : List StorageId) (h : Handle) : Fed p (p.feed held 0 h).2 h.content := by
  obtain ⟨sound', waits⟩ := feed_spec sound closed held 0 h
  have kept : (p.feed held 0 h).2.readChannel = p.readChannel ∧ (p.feed held 0 h).2.readLimit = p.readLimit ∧
      (p.feed held 0 h).2.writeEndClosed = p.writeEndClosed := by
    rw [feed, if_neg (by simp [closed])]
    exact ⟨rfl, rfl, rfl⟩
  obtain ⟨channel', limit, closed'⟩ := kept
  refine ⟨sound', ?_, channel'.trans channel, limit, closed'.trans closed⟩
  rw [waiting_eq, waiting_eq, channel', channel, waits, if_pos rfl]

private theorem feedAll_fed {p : Pipe} (sound : Source.Sound p) (channel : p.readChannel = 0)
    (closed : p.writeEndClosed = false) (pieces : List (List StorageId × Handle)) :
    Fed p (p.feedAll pieces) (pieces.flatMap fun piece => piece.2.content) := by
  induction pieces generalizing p with
  | nil => exact ⟨sound, (List.append_nil _).symm, channel, rfl, closed⟩
  | cons piece rest ih =>
    obtain ⟨sound', waiting, channel', limit, closed'⟩ := feed_fed sound channel closed piece.1 piece.2
    obtain ⟨sound'', waiting', channel'', limit', closed''⟩ := ih sound' channel' closed'
    refine ⟨sound'', ?_, channel'', limit'.trans limit, closed''⟩
    rw [feedAll, List.foldl_cons, ← feedAll, waiting', waiting, List.flatMap_cons, List.append_assoc]

end Medium.Pipe

namespace Device

/-- An empty pipe whose reads are capped. -/
def limited (limit : Option Nat) : Medium.Pipe := { Medium.Pipe.empty with readLimit := limit }

theorem open_pipe (limit : Option Nat) (pieces : List (List StorageId × Handle)) (config : Config)
    (text unbuffered : Bool) :
    ∃ d, (Device.ofMedium ((limited limit).feedAll pieces) config).openWith (.forReading false text unbuffered) =
        (.ok (), d) ∧
      d.Ready [] (pieces.flatMap fun piece => piece.2.content) ∧ d.readObstacle? = none ∧
      d.mode = .forReading false text unbuffered ∧ d.config = config.normalize ∧ d.transaction = .idle ∧ d.pos = 0 ∧
      d.sequential = true ∧ d.medium.readLimit = limit := by
  obtain ⟨sound, waiting, channel, limit_eq, -⟩ := Medium.Pipe.feedAll_fed (p := limited limit)
    (fun _ member => absurd member List.not_mem_nil) rfl rfl pieces
  generalize (limited limit).feedAll pieces = q at *
  obtain ⟨incoming, written, readChannel, writeChannel, readLimit, writeLimit, writeEndClosed⟩ := q
  obtain rfl : readChannel = 0 := channel
  have ready := ofMedium_ready (m := Medium.select
    (⟨incoming, written, 0, writeChannel, readLimit, writeLimit, writeEndClosed⟩ : Medium.Pipe) 0 0)
    sound (fun random => absurd random.symm Bool.false_ne_true) config (.forReading false text unbuffered)
  have bytes : Source.ahead (Medium.select
      (⟨incoming, written, 0, writeChannel, readLimit, writeLimit, writeEndClosed⟩ : Medium.Pipe) 0 0) =
      pieces.flatMap fun piece => piece.2.content := waiting
  rw [bytes] at ready
  refine ⟨_, ?_, ready, ?_, rfl, rfl, rfl, rfl, rfl, limit_eq⟩
  · rw [openWith, OpenMode.normalized_forReading]
    rfl
  · cases text <;> cases unbuffered <;> rfl

end Device

end ByteFlow
