import ByteFlow.ChunkQueue.Basic

/-! The queues of a device's channels in one direction, one of which is the current one.
There is always a current channel, and channels are never taken away. -/
namespace ByteFlow.Device

structure Channels where
  queues : List ChunkQueue
  current : Nat
  inside : current < queues.length

namespace Channels

/-- One channel with nothing queued. -/
def single (chunkSize : Nat) : Channels := ⟨[ChunkQueue.withChunkSize chunkSize], 0, by simp⟩

def count (c : Channels) : Nat := c.queues.length

/-- The queue of the current channel. -/
def queue (c : Channels) : ChunkQueue := c.queues.get ⟨c.current, c.inside⟩

/-- Replaces the queue of the current channel. -/
def put (c : Channels) (q : ChunkQueue) : Channels :=
  ⟨c.queues.set c.current q, c.current, by simpa using c.inside⟩

@[simp] theorem queue_put (c : Channels) (q : ChunkQueue) : (c.put q).queue = q := by
  simp [queue, put]

/-- Changes the queue of one channel. -/
def change (c : Channels) (channel : Nat) (f : ChunkQueue → ChunkQueue) : Channels :=
  ⟨c.queues.modify channel f, c.current, by simpa using c.inside⟩

/-- Makes a channel the current one, if it exists. -/
def select (c : Channels) (channel : Nat) : Channels :=
  if inside : channel < c.queues.length then ⟨c.queues, channel, inside⟩ else c

/-- Adds empty channels up to a number of them. -/
def grow (c : Channels) (n chunkSize : Nat) : Channels :=
  ⟨c.queues ++ List.replicate (n - c.count) (ChunkQueue.withChunkSize chunkSize), c.current, by
    have := c.inside
    simp only [List.length_append]
    omega⟩

/-- The storages of all queues. -/
def ids (c : Channels) : List StorageId := c.queues.flatMap ChunkQueue.ids

/-- The storages of all queues but that of one channel. -/
def idsBeside (c : Channels) (channel : Nat) : List StorageId :=
  (c.queues.eraseIdx channel).flatMap ChunkQueue.ids

end Channels

end ByteFlow.Device
