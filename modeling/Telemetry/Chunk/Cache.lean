import Telemetry.Chunk

/-!
A cache of chunks that forgets the one which was used the longest time ago.
-/

namespace Telemetry.Chunk

/-- The start and the end of a range, cut to the records there are. -/
abbrev Key := Nat × Nat

structure Cache where
  capacity : Nat
  /-- The chunk that was used last comes first. -/
  entries : List (Key × Chunk) := []
  /-- Neither counter passes the number of look-ups, so both are exact in 64 bits for fewer than
  `2 ^ 64` of these. -/
  hits : Nat := 0
  misses : Nat := 0
  deriving Repr

namespace Cache

def defaultCapacity : Nat := 128

/-- A cache always holds at least one chunk. -/
def new (capacity : Nat) : Cache where
  capacity := max 1 capacity

/-- The entries without those of a key. -/
def without (key : Key) (entries : List (Key × Chunk)) : List (Key × Chunk) :=
  entries.filter (·.1 != key)

/-- Looks a chunk up; one that is found counts as used. -/
def get (c : Cache) (key : Key) : Option Chunk × Cache :=
  match c.entries.lookup key with
  | some chunk =>
    (some chunk, { c with entries := (key, chunk) :: without key c.entries, hits := c.hits + 1 })
  | none => (none, { c with misses := c.misses + 1 })

def put (c : Cache) (key : Key) (chunk : Chunk) : Cache :=
  { c with entries := ((key, chunk) :: without key c.entries).take c.capacity }

def size (c : Cache) : Nat :=
  c.entries.length

end Cache

end Telemetry.Chunk
