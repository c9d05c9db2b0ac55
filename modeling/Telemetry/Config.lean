import Telemetry.Chunk.Cache
import Telemetry.Tag.Table

/-!
The settings of the stream service.
-/

namespace Telemetry

/-- Settings of the stream. -/
structure Config.Stream where
  /-- The name of the file, in which placeholders are expanded. -/
  file : String := "$\x7bwork.dir\x7d/stream.bin"
  interval : Nat := Index.defaultInterval
  cacheCapacity : Nat := Chunk.Cache.defaultCapacity
  clock : Clock.Config := {}
  /-- The standard tags if there are none. -/
  tags : Option (List Tag) := none
  deriving DecidableEq, Repr

/-- The address to serve at. -/
structure Config.Web where
  host : String := "127.0.0.1"
  port : UInt16 := 8080
  deriving DecidableEq, Repr

structure Config where
  workDir : String := "."
  web : Config.Web := {}
  stream : Config.Stream := {}
  deriving DecidableEq, Repr

namespace Config.Stream

def table (c : Stream) : Except Tag.Table.Error Tag.Table :=
  match c.tags with
  | some tags => Tag.Table.ofList tags
  | none => .ok .standard

end Config.Stream

end Telemetry
