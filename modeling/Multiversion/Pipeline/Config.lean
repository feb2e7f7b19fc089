import Multiversion.Json.Value

/-!
# Settings of the write pipeline

* `BufferLimits` — when a buffer flushes, and how many of its flushes may be in flight;
* `PipelineConfig` — the settings that all buffers of a pipeline share, readable from JSON;
* `PipelineConfig.pause` — the pause before each retry.
-/

namespace Multiversion

/-- What a buffer does when as many flushes as permitted are in flight. -/
inductive Backpressure where
  | block
  -- Fail, and keep the rows.
  | reject
  deriving DecidableEq, Repr

namespace Backpressure

/-- The name of a policy in settings. -/
def name : Backpressure → String
  | block => "block"
  | reject => "reject"

/-- The policy of a name. -/
def ofName? (s : String) : Option Backpressure := [block, reject].find? (·.name = s)

end Backpressure

/-- Limits of one buffer. -/
structure BufferLimits where
  maxEntries : Nat := 1000
  maxHeapSize : Nat := 3145728
  maxFlushes : Nat := 5
  deriving DecidableEq, Repr

namespace BufferLimits

/-- Sets the number of rows; zero counts as one. -/
def withMaxEntries (l : BufferLimits) (n : Nat) : BufferLimits := { l with maxEntries := max n 1 }

/-- Sets the number of bytes. -/
def withMaxHeapSize (l : BufferLimits) (n : Nat) : BufferLimits := { l with maxHeapSize := n }

/-- Sets the number of flushes; zero counts as one. -/
def withMaxFlushes (l : BufferLimits) (n : Nat) : BufferLimits := { l with maxFlushes := max n 1 }

/-- The limits with zeros raised to one, as every buffer uses them. -/
def normalized (l : BufferLimits) : BufferLimits :=
  (l.withMaxEntries l.maxEntries).withMaxFlushes l.maxFlushes

end BufferLimits

/-- Settings shared by the buffers of a pipeline. -/
structure PipelineConfig where
  maxBufferEntries : Nat := 1000
  maxBufferHeapSize : Nat := 3145728
  maxRetries : Nat := 5
  -- The base of the pauses between retries, in milliseconds.
  clientPause : Nat := 1000
  maxFlushesPerRegion : Nat := 5
  maxAsyncThreads : Nat := 100
  backpressure : Backpressure := .block
  deriving DecidableEq, Repr

namespace PipelineConfig

/-- Multipliers of the base pause on successive retries; the last one stands for all that follow. -/
def backoff : List Nat := [1, 1, 1, 2, 2, 4, 4, 8, 16, 32, 64]

/-- The pause before a retry, counted from zero, in milliseconds. -/
def pause (c : PipelineConfig) (attempt : Nat) : Nat :=
  c.clientPause * backoff.getD (min attempt (backoff.length - 1)) 1

/-- The limits of the buffers of this pipeline. -/
def bufferLimits (c : PipelineConfig) : BufferLimits where
  maxEntries := max c.maxBufferEntries 1
  maxHeapSize := c.maxBufferHeapSize
  maxFlushes := max c.maxFlushesPerRegion 1

/-- The settings that JSON may give. -/
inductive Field where
  | maxBufferEntries
  | maxBufferHeapSize
  | maxRetries
  | clientPause
  | maxFlushesPerRegion
  | maxAsyncThreads
  | backpressure
  deriving DecidableEq, Repr

namespace Field

/-- All settings, in the order in which an array gives them. -/
def all : List Field :=
  [maxBufferEntries, maxBufferHeapSize, maxRetries, clientPause, maxFlushesPerRegion,
    maxAsyncThreads, backpressure]

/-- The name of a setting. -/
def name : Field → String
  | maxBufferEntries => "maxBufferEntries"
  | maxBufferHeapSize => "maxBufferHeapSize"
  | maxRetries => "maxRetries"
  | clientPause => "clientPause"
  | maxFlushesPerRegion => "writeMaxFlushesPerRegion"
  | maxAsyncThreads => "maxAsyncThreads"
  | backpressure => "backpressure"

/-- The setting of a name. -/
def ofName? (s : String) : Option Field := all.find? (·.name = s)

end Field

open Json (Value)

/-- The bound of a 64-bit setting. -/
def wordBound : Nat := 18446744073709551616

/-- The bound of a 32-bit setting. -/
def halfWordBound : Nat := 4294967296

/-- Gives a setting the value that JSON gives it. -/
def setJson (c : PipelineConfig) (v : Value) : Field → Option PipelineConfig
  | .maxBufferEntries => do return { c with maxBufferEntries := ← v.below? wordBound }
  | .maxBufferHeapSize => do return { c with maxBufferHeapSize := ← v.below? wordBound }
  | .maxRetries => do return { c with maxRetries := ← v.below? halfWordBound }
  | .clientPause => do return { c with clientPause := ← v.below? wordBound }
  | .maxFlushesPerRegion => do return { c with maxFlushesPerRegion := ← v.below? wordBound }
  | .maxAsyncThreads => do return { c with maxAsyncThreads := ← v.below? wordBound }
  | .backpressure => do return { c with backpressure := ← v.variant? Backpressure.ofName? }

/-- Settings under construction: the values so far, and the settings that have been given. -/
abbrev Draft := PipelineConfig × List Field

/-- Gives the setting that a member names its value, if there is one; a setting given twice is
refused. -/
def setMember (d : Draft) (m : Option String × Value) : Option Draft := do
  match Field.ofName? (← m.1) with
  | none => return d
  | some f => if d.2.contains f then none else return (← d.1.setJson m.2 f, f :: d.2)

/-- The settings that a JSON value stands for.  Settings that it does not give keep their defaults; an
array gives the first ones in order. -/
def ofJson? : Value → Option PipelineConfig
  | .object members => do return (← members.foldlM setMember ({}, [])).1
  | .array items =>
      if items.length ≤ Field.all.length then
        (Field.all.zip items).foldlM (fun c (f, v) => c.setJson v f) ({} : PipelineConfig)
      else
        none
  | _ => none

end PipelineConfig

end Multiversion
