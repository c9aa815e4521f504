import ByteFlow.Proofs.Device.Event

/-! A device over a pipe neither loses nor doubles nor reorders input.
What was fed on a channel is what was handed out on it, then what is queued for it, then what waits in
the pipe, however channels are chosen, whatever is asked for and however the pipe caps its reads. -/
namespace ByteFlow.Device
open Medium

/-- The bytes that a call hands out: those in its reply, or as many of the next ones as it tells. -/
def given (d : Device Pipe) (action : Action) : Except Failure Reply → List UInt8
  | .error _ => []
  | .ok reply =>
    match action, reply with
    | .peek _, _ | .peekInto _, _ => []
    | .skip _, .size n => d.stream.take n
    | _, reply => reply.content

/-- How many bytes a call tells that it handed out. -/
def counted (action : Action) : Except Failure Reply → Nat
  | .error _ => 0
  | .ok reply =>
    match action, reply with
    | .peek _, _ | .peekInto _, _ => 0
    | .skip _, .size n => n
    | _, reply => reply.content.length

/-- What an event hands out on the current channel. -/
def hands (d : Device Pipe) : Event → Traffic
  | .call action => [(d.reading.current, d.given action (d.perform action).1)]
  | _ => []

def tells (d : Device Pipe) : Event → Nat
  | .call action => counted action (d.perform action).1
  | _ => 0

/-- What is handed out during a run. -/
def handed (d : Device Pipe) : List Event → Traffic
  | [] => []
  | event :: rest => d.hands event ++ (d.after event).handed rest

/-- How many bytes the calls of a run tell that they handed out. -/
def told (d : Device Pipe) : List Event → Nat
  | [] => 0
  | event :: rest => d.tells event + (d.after event).told rest

/-- The events of a run that reads. -/
def Event.reading : Event → Prop
  | .call action => action.reads ∨ (∃ n, action = .growReading n) ∨ ∃ channel, action = .selectReading channel
  | .remote _ | .hold _ => True

/-- The device accounts for all that was fed and handed out. -/
structure Accounts (d : Device Pipe) (fed handed : Traffic) (told : Nat) : Prop where
  orderly : Orderly d
  mode : ∃ unbuffered, d.mode = .forReading false false unbuffered
  idle : d.transaction = .idle
  conserved : ∀ channel,
    handed.onChannel channel ++ d.queuedOn channel ++ d.medium.waitingOn channel = fed.onChannel channel
  pos : d.pos = handed.total
  told : told = handed.total

variable {d e : Device Pipe} {raw t : List UInt8} {fed handed more : Traffic} {told : Nat}

private theorem Shows.given {action : Action} {reply : Except Failure Reply} (shows : Shows action raw reply)
    (split : d.stream = raw ++ t) : d.given action reply = raw ∧ counted action reply = raw.length := by
  cases reply with
  | error failure => exact ⟨shows.symm, congrArg List.length shows.symm⟩
  | ok reply =>
    cases action with
    | peek n => exact ⟨shows.symm, congrArg List.length shows.symm⟩
    | peekInto buffer => exact ⟨shows.symm, congrArg List.length shows.symm⟩
    | skip n =>
      have told : reply = .size raw.length := shows
      subst told
      refine ⟨?_, rfl⟩
      show d.stream.take raw.length = raw
      rw [split, List.take_left]
    | _ => exact ⟨shows, congrArg List.length shows⟩

private theorem total_le_of_conserved {queued waiting : Nat → List UInt8}
    (conserved : ∀ channel, handed.onChannel channel ++ queued channel ++ waiting channel = fed.onChannel channel) :
    handed.total ≤ fed.total := by
  apply Traffic.total_le_total
  intro channel
  rw [← conserved, List.append_assoc, List.length_append]
  exact Nat.le_add_right ..

namespace Accounts

private theorem isOpen (accounts : Accounts d fed handed told) : d.isOpen = true := by
  obtain ⟨unbuffered, mode⟩ := accounts.mode
  rw [Device.isOpen, mode]
  cases unbuffered <;> rfl

private theorem plain (accounts : Accounts d fed handed told) : d.isText = false := by
  obtain ⟨unbuffered, mode⟩ := accounts.mode
  rw [isText, mode]
  rfl

private theorem stream_le (accounts : Accounts d fed handed told) :
    (handed.onChannel d.reading.current).length + d.stream.length = (fed.onChannel d.reading.current).length := by
  rw [← accounts.conserved, accounts.orderly.stream_eq accounts.isOpen accounts.idle, List.append_assoc,
    ← List.length_append]

private theorem short (accounts : Accounts d fed handed told) (small : fed.total ≤ Word.maxValue) : d.Short := by
  have := accounts.stream_le
  have := Traffic.length_onChannel_le fed d.reading.current
  have retained := accounts.orderly.length_retained
  rw [Device.cursor, accounts.idle] at retained
  rw [accounts.orderly.short_iff, retained]
  dsimp only
  omega

/-- What a call takes off the stream is handed out on the current channel. -/
private theorem takes (accounts : Accounts d fed handed told) (takes : Takes d e raw)
    (small : fed.total ≤ Word.maxValue) :
    Accounts e fed (handed ++ [(d.reading.current, raw)]) (told + raw.length) := by
  have orderly := takes.orderly accounts.orderly
  have idle : e.transaction = .idle := by rw [takes.reads.transaction, accounts.idle]; rfl
  have conserved : ∀ channel, (handed ++ [(d.reading.current, raw)]).onChannel channel ++ e.queuedOn channel ++
      e.medium.waitingOn channel = fed.onChannel channel := by
    intro channel
    rw [Traffic.onChannel_append, Traffic.onChannel_singleton]
    split
    · next here =>
      subst here
      have left := orderly.stream_eq (takes.isOpen.trans accounts.isOpen) idle
      rw [takes.current] at left
      rw [List.append_assoc, List.append_assoc, ← left, ← takes.split,
        accounts.orderly.stream_eq accounts.isOpen accounts.idle, ← List.append_assoc, accounts.conserved]
    · next other =>
      rw [List.append_nil, takes.queuedOn (Ne.symm other), takes.waitingOn, accounts.conserved]
      rw [accounts.orderly.channel accounts.isOpen]
      exact Ne.symm other
  refine ⟨orderly, ?_, idle, conserved, ?_, ?_⟩
  · obtain ⟨unbuffered, mode⟩ := accounts.mode
    exact ⟨unbuffered, takes.mode.trans mode⟩
  -- Conservation bounds what was handed out by what was fed, so that the position has not gone around.
  · have fits := total_le_of_conserved conserved
    have := Word.maxValue_lt_modulus
    rw [Traffic.total_append, Traffic.total_singleton] at fits ⊢
    rw [takes.reads.pos, accounts.pos, Word.addWrapped_of_lt (by omega)]
  · rw [accounts.told, Traffic.total_append, Traffic.total_singleton]

/-- What takes nothing off the stream may add to what waits. -/
private theorem gains (accounts : Accounts d fed handed told) (orderly : Orderly e) (mode : e.mode = d.mode)
    (transaction : e.transaction = d.transaction) (pos : e.pos = d.pos)
    (queued : ∀ channel, e.queuedOn channel = d.queuedOn channel)
    (waits : ∀ channel, e.medium.waitingOn channel = d.medium.waitingOn channel ++ more.onChannel channel) :
    Accounts e (fed ++ more) handed told := by
  obtain ⟨unbuffered, same⟩ := accounts.mode
  refine ⟨orderly, ⟨unbuffered, mode.trans same⟩, transaction.trans accounts.idle, fun other => ?_,
    pos.trans accounts.pos, accounts.told⟩
  rw [Traffic.onChannel_append, queued, waits, ← List.append_assoc, accounts.conserved]

private theorem keeps (accounts : Accounts d fed handed told) (orderly : Orderly e) (mode : e.mode = d.mode)
    (transaction : e.transaction = d.transaction) (pos : e.pos = d.pos)
    (queued : ∀ channel, e.queuedOn channel = d.queuedOn channel)
    (waits : ∀ channel, e.medium.waitingOn channel = d.medium.waitingOn channel) : Accounts e fed handed told := by
  have gained : Accounts e (fed ++ []) handed told := accounts.gains orderly mode transaction pos queued
    fun channel => (waits channel).trans (List.append_nil _).symm
  rwa [List.append_nil] at gained

/-- A call that hands out nothing leaves an entry that counts nothing. -/
private theorem hands_nothing (accounts : Accounts d fed handed told) (channel : Nat) :
    Accounts d fed (handed ++ [(channel, [])]) told := by
  obtain ⟨orderly, mode, idle, conserved, pos, same⟩ := accounts
  have total : (handed ++ [(channel, [])]).total = handed.total := by
    rw [Traffic.total_append, Traffic.total_singleton]
    rfl
  refine ⟨orderly, mode, idle, fun other => ?_, pos.trans total.symm, same.trans total.symm⟩
  rw [Traffic.onChannel_append, Traffic.onChannel_singleton, ite_self, List.append_nil, conserved]

private theorem growReading (accounts : Accounts d fed handed told) (n : Nat) :
    Accounts (d.growReading n) fed handed told :=
  accounts.keeps (accounts.orderly.growReading n) rfl rfl rfl (queuedOn_growReading d n) fun _ => rfl

private theorem selectReading (accounts : Accounts d fed handed told) (channel : Nat) :
    Accounts (d.selectReading channel).2 fed handed told := by
  have orderly := accounts.orderly.selectReading channel
  rcases selectReading_eq d channel with ⟨errorString, refused⟩ | same | ⟨-, -, chosen⟩
  · rw [refused] at orderly ⊢
    exact accounts.keeps orderly rfl rfl rfl (fun _ => rfl) fun _ => rfl
  · rwa [same]
  · rw [chosen] at orderly ⊢
    exact accounts.keeps orderly rfl rfl rfl (fun other => by rw [Device.queuedOn, Channels.queues_select]; rfl) fun _ => rfl

/-- Every event keeps the account. -/
private theorem after (accounts : Accounts d fed handed told) {event : Event} (reading : event.reading)
    (small : (fed ++ d.feeds event).total ≤ Word.maxValue) :
    Accounts (d.after event) (fed ++ d.feeds event) (handed ++ d.hands event) (told + d.tells event) := by
  have orderly := accounts.orderly
  cases event with
  | remote act =>
    obtain ⟨-, waits, -⟩ := Pipe.act_spec orderly.sound act
    have kept := accounts.gains (orderly.remote act) rfl rfl rfl (fun _ => rfl) waits
    rwa [← List.append_nil handed] at kept
  | hold ids =>
    have kept : Accounts (d.after (.hold ids)) fed handed told :=
      accounts.keeps (orderly.hold ids) rfl rfl rfl (fun _ => rfl) fun _ => rfl
    rwa [← List.append_nil fed, ← List.append_nil handed] at kept
  | call action =>
    rw [feeds_call, List.append_nil] at small ⊢
    rcases reading with reads | ⟨n, rfl⟩ | ⟨channel, rfl⟩
    · obtain ⟨raw, takes, shows⟩ := orderly.draws (accounts.short small) reads
      obtain ⟨given, counted⟩ := (shows accounts.plain).given takes.split
      rw [hands, tells, given, counted]
      exact accounts.takes takes small
    · exact (accounts.growReading n).hands_nothing d.reading.current
    · have silent : d.hands (.call (.selectReading channel)) = [(d.reading.current, [])] ∧
          d.tells (.call (.selectReading channel)) = 0 := by
        rw [hands, tells, perform, answer]
        cases (d.selectReading channel).1 <;> exact ⟨rfl, rfl⟩
      rw [silent.1, silent.2]
      exact (accounts.selectReading channel).hands_nothing d.reading.current

/-- A run keeps the account. -/
private theorem afterAll (accounts : Accounts d fed handed told) (events : List Event)
    (reading : ∀ event ∈ events, event.reading)
    (small : (fed ++ d.fed events).total ≤ Word.maxValue) :
    Accounts (d.afterAll events) (fed ++ d.fed events) (handed ++ d.handed events) (told + d.told events) := by
  induction events generalizing d fed handed told with
  | nil =>
    rw [Device.fed, Device.handed, List.append_nil, List.append_nil]
    exact accounts
  | cons event rest ih =>
    rw [Device.fed, ← List.append_assoc] at small ⊢
    rw [Device.handed, Device.told, ← List.append_assoc, ← Nat.add_assoc]
    have soon : (fed ++ d.feeds event).total ≤ Word.maxValue := by
      rw [Traffic.total_append] at small
      omega
    exact ih (accounts.after (reading event List.mem_cons_self) soon)
      (fun other member => reading other (List.mem_cons_of_mem _ member)) small

end Accounts

private theorem open_accounts (acts : List Pipe.Act) {config : Config}
    (possible : config.bufferSize < Word.requestLimit)
    (unbuffered : Bool) :
    ∃ d, (ofMedium (Pipe.empty.actAll acts) config).openWith (.forReading false false unbuffered) = (.ok (), d) ∧
      Accounts d (Pipe.empty.acceptsAll acts) [] 0 := by
  have none : Source.Sound Pipe.empty := fun _ member => absurd member List.not_mem_nil
  obtain ⟨sound, waits⟩ := Pipe.actAll_spec none acts
  have orderly := (orderly_ofMedium sound possible).openWith (.forReading false false unbuffered)
  generalize opened : (ofMedium (Pipe.empty.actAll acts) config).openWith (.forReading false false unbuffered) = result at orderly
  rw [openWith, OpenMode.normalized_forReading] at opened
  subst opened
  refine ⟨_, rfl, orderly, ⟨unbuffered, rfl⟩, rfl, fun channel => ?_, rfl, rfl⟩
  have single : ∀ chunkSize, (((Channels.single chunkSize).queues[channel]?).map ChunkQueue.toList).getD [] = [] := by
    intro chunkSize
    cases channel with
    | zero => exact ChunkQueue.toList_withChunkSize _
    | succ channel => rfl
  show [] ++ (((Channels.single _).queues[channel]?).map ChunkQueue.toList).getD [] ++
    (Pipe.empty.actAll acts).waitingOn channel = _
  rw [single, waits]
  rfl

/-- On a device opened to read a pipe, whatever the pipe was fed before and is fed meanwhile, however it caps
its reads, and whichever channels are read in whatever way: what was fed on a channel is what was handed out on
it, then what is queued for it, then what waits in the pipe. The position is how many bytes were handed out, as
many as the calls told, and what can be read is what was fed on the current channel and not handed out. -/
theorem input_conserved (config : Config) (possible : config.bufferSize < Word.requestLimit) (unbuffered : Bool)
    (acts : List Pipe.Act) (events : List Event) (reading : ∀ event ∈ events, event.reading) :
    ∃ d, (ofMedium (Pipe.empty.actAll acts) config).openWith (.forReading false false unbuffered) = (.ok (), d) ∧
      ∀ fed, fed = Pipe.empty.acceptsAll acts ++ d.fed events → fed.total ≤ Word.maxValue →
        (∀ channel, (d.handed events).onChannel channel ++ (d.afterAll events).queuedOn channel ++
          (d.afterAll events).medium.waitingOn channel = fed.onChannel channel) ∧
        (d.afterAll events).pos = (d.handed events).total ∧ d.told events = (d.handed events).total ∧
        ((d.handed events).onChannel (d.afterAll events).reading.current).length + (d.afterAll events).bytesAvailable =
          (fed.onChannel (d.afterAll events).reading.current).length := by
  obtain ⟨d, opened, accounts⟩ := open_accounts acts possible unbuffered
  refine ⟨d, opened, ?_⟩
  rintro _ rfl small
  have last := accounts.afterAll events reading small
  rw [List.nil_append, Nat.zero_add] at last
  refine ⟨last.conserved, last.pos, last.told, ?_⟩
  rw [last.orderly.bytesAvailable last.isOpen]
  exact last.stream_le

/-- Two channels are fed and read in turns, by calls of many kinds, while the pipe changes its cap. -/
def mixedEvents : List Event :=
  [.call (.growReading 2), .call (.read 3), .remote (.feed [] 1 (Handle.ofFixed [] [21, 22, 10, 23, 24])), .call (.peek 2),
    .call (.selectReading 1), .call (.readLine 0), .remote (.limitReads none), .call (.skip 1), .call (.selectReading 0),
    .call (.selectReading 5), .call .getByte, .call (.readInto [0, 0]), .remote (.feed [] 0 (Handle.ofFixed [] [19])),
    .call (.selectReading 1), .call (.peekInto [0, 0]), .call (.readLineInto 1)]

theorem input_conserved_mixed :
    ∃ d, (ofMedium (Pipe.empty.actAll [.feed [] 0 (Handle.ofFixed [] [11, 12, 13, 14, 15, 16, 17, 18]), .limitReads (some 2)])
        ⟨3, 1, 0, false⟩).openWith (.forReading false false false) = (.ok (), d) ∧
      (d.handed mixedEvents).onChannel 0 = [11, 12, 13, 14, 15] ∧
      (d.handed mixedEvents).onChannel 1 = [21, 22, 10, 23] ∧
      (d.afterAll mixedEvents).queuedOn 0 ++ (d.afterAll mixedEvents).medium.waitingOn 0 = [16, 17, 18, 19] ∧
      (d.afterAll mixedEvents).pos = 9 ∧ (d.afterAll mixedEvents).bytesAvailable = 1 := by
  obtain ⟨d, opened, conserved⟩ := input_conserved ⟨3, 1, 0, false⟩ (by decide) false
    [.feed [] 0 (Handle.ofFixed [] [11, 12, 13, 14, 15, 16, 17, 18]), .limitReads (some 2)] mixedEvents
    (by simp [mixedEvents, Event.reading, Action.reads])
  obtain rfl : d = _ := (congrArg Prod.snd opened).symm
  obtain ⟨channels, pos, -, available⟩ := conserved _ rfl (by decide +kernel)
  refine ⟨_, opened, by decide +kernel, by decide +kernel, ?_, pos.trans (by decide +kernel), ?_⟩
  · exact List.append_cancel_left ((List.append_assoc ..).symm.trans ((channels 0).trans (by decide +kernel)))
  · exact Nat.add_left_cancel (available.trans (by decide +kernel))

end ByteFlow.Device
