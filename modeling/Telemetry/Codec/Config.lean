import Telemetry.Codec.Clock
import Telemetry.Codec.Tag
import Telemetry.Config
import Telemetry.Json.Parser

/-!
The JSON form of the settings. The working directory is no part of it, and missing settings have
their defaults.
-/

namespace Telemetry

open Json

namespace Config

def Stream.toJson (c : Stream) : Json :=
  struct ([
    ("file", text c.file),
    ("checkpoint_interval", nat c.interval),
    ("cache_capacity", nat c.cacheCapacity),
    ("tick_ns", nat c.clock.tickNs),
    ("reorder_window_ticks", nat c.clock.window.toNat)] ++
    (c.tags.map fun tags => ("tags", list Tag.toJson tags)).toList)

/-- The settings of the clock stand among the others and are set aside at first. -/
def Stream.ofJsonAt? (depth : Nat) (j : Json) : Option Stream := do
  let defaults : Stream := {}
  let (f, other) ← j.setAside? (maxDepth - (depth + 1))
    ["file", "checkpoint_interval", "cache_capacity", "tags"]
  let clock ← chosen? ["tick_ns", "reorder_window_ticks"] other
  return {
    file := ← f.withDefault "file" defaults.file text?
    interval := ← f.withDefault "checkpoint_interval" defaults.interval word64?
    cacheCapacity := ← f.withDefault "cache_capacity" defaults.cacheCapacity word64?
    clock := ← Clock.Config.ofFields? clock
    tags := ← f.withDefault "tags" defaults.tags (option? (list? (Tag.ofJsonAt? (depth + 2)))) }

def Stream.parse? (s : String) : Option Stream := do
  Stream.ofJsonAt? 0 (← Json.parse s)

def Web.toJson (c : Web) : Json :=
  struct [("host", text c.host), ("port", nat c.port.toNat)]

def Web.ofJson? (j : Json) : Option Web := do
  let f ← j.fields? ["host", "port"]
  return {
    host := ← f.required "host" text?
    port := ← f.required "port" word16? }

def toJson (c : Config) : Json :=
  struct [("web_server", c.web.toJson), ("stream", c.stream.toJson)]

def ofJson? (workDir : String) (j : Json) : Option Config := do
  let f ← j.fields? ["web_server", "stream"]
  return {
    workDir
    web := ← f.withDefault "web_server" {} Web.ofJson?
    stream := ← f.withDefault "stream" {} (Stream.ofJsonAt? 1) }

def parse? (workDir : String) (s : String) : Option Config := do
  ofJson? workDir (← Json.parse s)

end Config

end Telemetry
