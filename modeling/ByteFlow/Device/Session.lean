import ByteFlow.Device.Stream

/-! Scripts of device calls: every call as an action, its answer as a reply.
A session also keeps handles whose storages the device may share. -/
namespace ByteFlow.Device

/-- A call on a device. -/
inductive Action where
  | openWith (mode : OpenMode)
  | close
  | flush
  | read (n : Nat)
  | readAll
  | readInto (buffer : List UInt8)
  | peek (n : Nat)
  | peekInto (buffer : List UInt8)
  | readLine (n : Nat)
  | readLineInto (room : Nat)
  | skip (n : Nat)
  | getByte
  | ungetByte (b : UInt8)
  | write (bytes : List UInt8)
  | putByte (b : UInt8)
  | seek (place : Nat)
  | reset
  | startTransaction
  | commit
  | rollback
  | growReading (n : Nat)
  | growWriting (n : Nat)
  | selectReading (channel : Nat)
  | selectWriting (channel : Nat)
  | push (channel : Nat) (data : Handle)
  | setText (on : Bool)

/-- What a call answers. -/
inductive Reply where
  | done
  | size (n : Nat)
  | flag (b : Bool)
  | byte (b : Option UInt8)
  | bytes (bytes : List UInt8)
  | handle (h : Handle)

variable {σ α : Type}

/-- A result as a reply. -/
def answer (f : α → Reply) (result : Except Failure α × Device σ) :
    Except Failure Reply × Device σ :=
  (result.1.map f, result.2)

def perform [Medium σ] (d : Device σ) : Action → Except Failure Reply × Device σ
  | .openWith mode => answer (fun _ => .done) (d.openWith mode)
  | .close => answer (fun _ => .done) d.close
  | .flush => answer (fun _ => .done) d.flush
  | .read n => answer .handle (d.read n)
  | .readAll => answer .handle d.readAll
  | .readInto buffer => answer .bytes (d.readInto buffer)
  | .peek n => answer .handle (d.peek n)
  | .peekInto buffer => answer .bytes (d.peekInto buffer)
  | .readLine n => answer .handle (d.readLine n)
  | .readLineInto room => answer .bytes (d.readLineInto room)
  | .skip n => answer .size (d.skip n)
  | .getByte => answer .byte d.getByte
  | .ungetByte b => answer (fun _ => .done) (d.ungetByte b)
  | .write bytes => answer .size (d.write bytes)
  | .putByte b => answer .flag (d.putByte b)
  | .seek place => answer (fun _ => .done) (d.seek place)
  | .reset => answer (fun _ => .done) d.reset
  | .startTransaction => answer (fun _ => .done) d.startTransaction
  | .commit => answer (fun _ => .done) d.commit
  | .rollback => answer (fun _ => .done) d.rollback
  | .growReading n => (.ok .done, d.growReading n)
  | .growWriting n => (.ok .done, d.growWriting n)
  | .selectReading channel => answer (fun _ => .done) (d.selectReading channel)
  | .selectWriting channel => answer (fun _ => .done) (d.selectWriting channel)
  | .push channel data => answer (fun _ => .done) (d.push channel data)
  | .setText on => answer (fun _ => .done) (d.setText on)

/-- A device and the handles that its caller kept. -/
structure Session (σ : Type) where
  device : Device σ
  kept : List Handle

namespace Session

def start (d : Device σ) : Session σ := ⟨d, []⟩

/-- Keeps one more handle. -/
def keep (s : Session σ) (h : Handle) : Session σ :=
  let kept := s.kept ++ [h]
  ⟨{ s.device with outside := Handle.ids kept }, kept⟩

/-- The kept handles that share storage with `h`, by their numbers. -/
def sharing (s : Session σ) (h : Handle) : List Nat :=
  (s.kept.zipIdx.filter fun k => h.sharesWith k.1).map Prod.snd

def perform [Medium σ] (s : Session σ) (action : Action) : Except Failure Reply × Session σ :=
  let (reply, d) := s.device.perform action
  (reply, { s with device := d })

end Session

end ByteFlow.Device
