import ByteFlow.Number.Decimal
import ByteFlow.Codec.Hex
import ByteFlow.Codec.Base64
import ByteFlow.Codec.Base64.Reference
import ByteFlow.Codec.Percent
import ByteFlow.Word
import ByteFlow.Codec.Json
import ByteFlow.Search.Find
import ByteFlow.Search.Substitution
import ByteFlow.Newline
import ByteFlow.Handle.Table
import ByteFlow.ChunkQueue.Session
import ByteFlow.Failure
import ByteFlow.OpenMode
import ByteFlow.Config.Environment
import ByteFlow.Config.Toml
import ByteFlow.Medium.Choice
import ByteFlow.Medium.Traced
import ByteFlow.Device.Session
import ByteFlow.Proofs.Handle.Content
import ByteFlow.Proofs.ChunkQueue.Layout
import ByteFlow.Proofs.ChunkQueue.Supply
import ByteFlow.Proofs.ChunkQueue.Drain
import ByteFlow.Proofs.Newline.Lines
import ByteFlow.Proofs.ChunkQueue.Refinement
import ByteFlow.Proofs.ChunkQueue.Bounds
import ByteFlow.Proofs.ChunkQueue.Representation
import ByteFlow.Proofs.Search.Forward
import ByteFlow.Proofs.Search.Substitution
import ByteFlow.Proofs.Search.Bounds
import ByteFlow.Proofs.Text.Simplification
import ByteFlow.Proofs.Handle.Text
import ByteFlow.Proofs.Handle.Room
import ByteFlow.Proofs.Handle.Replacement
import ByteFlow.Proofs.Codec.Percent
import ByteFlow.Proofs.Handle.Sharing
import ByteFlow.Proofs.Handle.Memory
import ByteFlow.Proofs.Handle.Independence
import ByteFlow.Proofs.Medium.Memory
import ByteFlow.Proofs.Medium.Source
import ByteFlow.Proofs.Device.Supplies
import ByteFlow.Proofs.Device.Text
import ByteFlow.Proofs.Device.Collect
import ByteFlow.Proofs.Device.Line
import ByteFlow.Proofs.Device.Pass
import ByteFlow.Proofs.Device.Plain
import ByteFlow.Proofs.Device.Portion
import ByteFlow.Proofs.Device.Read
import ByteFlow.Proofs.Device.Run
import ByteFlow.Proofs.Device.Skip
import ByteFlow.Proofs.Device.Calls
import ByteFlow.Proofs.Medium.Pipe
import ByteFlow.Proofs.Device.Intake
import ByteFlow.Proofs.Device.Event
import ByteFlow.Proofs.Device.Conservation
import ByteFlow.Proofs.Device.Put
import ByteFlow.Proofs.Device.Writing
import ByteFlow.Proofs.Device.Reached
import ByteFlow.Proofs.Device.Rollback
import ByteFlow.Proofs.Device.Overlay
import ByteFlow.Proofs.Device.Grounded
import ByteFlow.Proofs.Device.Pushback
import ByteFlow.Proofs.Device.Peek
import ByteFlow.Proofs.Device.Switching
import ByteFlow.Proofs.Medium.Faultless
import ByteFlow.Proofs.Device.Touch
import ByteFlow.Proofs.Device.Bout
import ByteFlow.Proofs.Medium.Serving
import ByteFlow.Proofs.Device.Interrupted
import ByteFlow.Proofs.Device.Unsaid
import ByteFlow.Proofs.Device.Harmless
import ByteFlow.Proofs.Device.PutBack
import ByteFlow.Proofs.Device.Forgotten
import ByteFlow.Proofs.Device.Outgoing
import ByteFlow.Proofs.Medium.Accepting
import ByteFlow.Proofs.Device.Acceptance
import ByteFlow.Proofs.Device.Sending
import ByteFlow.Proofs.Device.RoundTrip
import ByteFlow.Proofs.Device.States
import ByteFlow.Proofs.Device.EndOfData
import ByteFlow.Proofs.Exchange.Sharing
import ByteFlow.Proofs.Text.Utf8
import ByteFlow.Proofs.Device.Lines
import ByteFlow.Proofs.Device.LineText
import ByteFlow.Proofs.ChunkQueue.Handover
import ByteFlow.Proofs.Device.Handover
import ByteFlow.Proofs.Handle.Ownership
import ByteFlow.Proofs.Handle.Reserved
import ByteFlow.Proofs.Codec.Base64.Reference
import ByteFlow.Proofs.Codec.Base64
import ByteFlow.Proofs.Number.Canonical
import ByteFlow.Proofs.Number.Rounding
import ByteFlow.Proofs.Number.Shortest
import ByteFlow.Proofs.Number.Decimal
import ByteFlow.Proofs.Number.Printed
import ByteFlow.Proofs.Search.Tiling
import ByteFlow.Proofs.Search.Find
import ByteFlow.Proofs.ChunkQueue.Answers
import ByteFlow.Proofs.Codec.Hex
import ByteFlow.Proofs.Text.Words
import ByteFlow.Proofs.Text.Decimal
import ByteFlow.Proofs.Text.Quoted
import ByteFlow.Proofs.Codec.Json
import ByteFlow.Proofs.Config.Environment
import ByteFlow.Proofs.Config.Toml.Tree
import ByteFlow.Proofs.Config.Toml.Document
import ByteFlow.Proofs.Handle.Spacing
import ByteFlow.Proofs.Newline.InPlace
import ByteFlow.Proofs.Device.Pieces
