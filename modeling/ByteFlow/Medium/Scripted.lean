import ByteFlow.Medium.Basic

/-! A medium whose calls have planned outcomes: a failure, a cap on the bytes moved, or a false
count. A call beyond its plan moves all it can. -/
namespace ByteFlow.Medium

/-- What a plan says about one call. -/
inductive Outcome where
  | fail (e : IoError)
  | cap (n : Nat)
  | claim (n : Nat)

structure Scripted where
  sequential : Bool
  data : List UInt8
  cursor : Nat
  written : List UInt8
  reads : List Outcome
  writes : List Outcome
  seeks : List Outcome
  opens : List Outcome
  closes : List Outcome
  flushes : List Outcome

namespace Scripted

/-- How many of `n` bytes a call may move. -/
def room (n : Nat) : Option Outcome → Nat
  | some (.cap most) => min most n
  | _ => n

/-- The count that a call reports for `n` bytes moved. -/
def report (n : Nat) : Option Outcome → Nat
  | some (.claim count) => count
  | _ => n

def read (s : Scripted) (n : Nat) : Except IoError Delivery × Scripted :=
  let rest := { s with reads := s.reads.tail }
  match s.reads.head? with
  | some (.fail e) => (.error e, rest)
  | outcome =>
    let bytes := (s.data.drop s.cursor).take (room n outcome)
    (.ok ⟨bytes, report bytes.length outcome⟩, { rest with cursor := s.cursor + bytes.length })

/-- The bytes with others written over them from a place on, after zero bytes up to there. -/
def overwrite (place : Nat) (new bytes : List UInt8) : List UInt8 :=
  bytes.take place ++ List.replicate (place - bytes.length) 0 ++ new ++
    bytes.drop (place + new.length)

def write (s : Scripted) (bytes : List UInt8) : Except IoError Nat × Scripted :=
  let rest := { s with writes := s.writes.tail }
  match s.writes.head? with
  | some (.fail e) => (.error e, rest)
  | outcome =>
    let moved := bytes.take (room bytes.length outcome)
    let after :=
      if s.sequential then { rest with written := s.written ++ moved }
      else { rest with
        data := overwrite s.cursor moved s.data, cursor := s.cursor + moved.length }
    (.ok (report moved.length outcome), after)

/-- The outcome of a call that moves no bytes: it goes through unless its plan fails it. -/
def outcomeOf : List Outcome → Except IoError Unit
  | .fail e :: _ => .error e
  | _ => .ok ()

def seek (s : Scripted) (place : Nat) : Except IoError Unit × Scripted :=
  let rest := { s with seeks := s.seeks.tail }
  match outcomeOf s.seeks with
  | .error e => (.error e, rest)
  | .ok () => (.ok (), { rest with cursor := place })

def openWith (s : Scripted) : Except IoError Unit × Scripted :=
  let rest := { s with opens := s.opens.tail }
  match outcomeOf s.opens with
  | .error e => (.error e, rest)
  | .ok () => (.ok (), { rest with cursor := 0 })

end Scripted

instance : Medium Scripted where
  read _ s n := s.read n
  write _ s bytes := s.write bytes
  seek _ s place := s.seek place
  openWith s _ := s.openWith
  close s := (Scripted.outcomeOf s.closes, { s with closes := s.closes.tail })
  flush s := (Scripted.outcomeOf s.flushes, { s with flushes := s.flushes.tail })
  select s _ _ := s
  isSequential s := s.sequential
  size s := s.data.length
  available s := s.data.length - s.cursor
  ids _ := []

end ByteFlow.Medium
