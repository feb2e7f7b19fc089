import Multiversion.Simulation.ManualFlushes
import Multiversion.Simulation.ScriptedHook

/-!
# A workbench for buffers

Buffers that are known by name, over one monitor and one world, which is either a workshop over a
scripted transport or flushes ended by hand.

* `BufferWorld` — the two worlds;
* `BufferBench.operate` — an operation of a named buffer;
* `BufferBench.openBuffer` — opens a buffer in place of one of the same name.
-/

namespace Multiversion

/-- The world of the buffers of a bench. -/
inductive BufferWorld where
  | workshop (route : Route) (shop : Workshop ScriptedTransport)
  | manual (flushes : ManualFlushes)

namespace BufferWorld

/-- What has been recorded since the record was last cleared. -/
def record : BufferWorld → List BatchCall × List RejectionEvent
  | workshop _ w => (w.world.calls, w.world.rejections)
  | manual m => (m.calls, m.rejections)

/-- The world with an empty record. -/
def clearRecord : BufferWorld → BufferWorld
  | workshop route w => workshop route { w with world := w.world.clearRecord }
  | manual m => manual m.clearRecord

/-- Counters of the writer. -/
def stats : BufferWorld → WriterStats
  | workshop .direct w => w.directStats
  | workshop .pooled w => w.pooledStats
  | manual _ => {}

/-- Carries out every queued flush. -/
def settle : BufferWorld → BufferWorld
  | workshop route w => workshop route (w.rest ScriptedTransport.transport)
  | manual m => manual m

/-- Stops the workers. -/
def stop : BufferWorld → BufferWorld
  | workshop route w => workshop route (w.shutdown ScriptedTransport.transport)
  | manual m => manual m

/-- Ends the open flush at an index. -/
def finish (index : Nat) (ending : Ending) : BufferWorld → BufferWorld
  | manual m => manual (m.finish index ending)
  | w => w

/-- Refuses flushes, or takes them again. -/
def refuse (refusing : Bool) : BufferWorld → BufferWorld
  | manual m => manual { m with refusing }
  | w => w

end BufferWorld

/-- A buffer that is known by name. -/
structure NamedBuffer where
  name : String
  buffer : CallBuffer
  hook : Hook

/-- Buffers over one monitor and one world. -/
structure BufferBench where
  limits : BufferLimits
  policy : Backpressure
  world : BufferWorld
  monitor : Monitor := {}
  buffers : List NamedBuffer := []

namespace BufferBench

/-- The buffer of a name. -/
def buffer? (s : BufferBench) (name : String) : Option NamedBuffer := s.buffers.find? (·.name = name)

/-- Puts a buffer in the place of the one of the same name. -/
def put (s : BufferBench) (b : NamedBuffer) : BufferBench :=
  { s with buffers := b :: s.buffers.filter (·.name ≠ b.name) }

/-- An operation of a buffer, in any world. -/
abbrev Operation (α : Type) :=
  {ω : Type} → Delivery ω → Buffering ω → α × Buffering ω

/-- Lets a buffer operate.  Before a closing operation, flushes that are ended by hand all end. -/
def operate {α : Type} (s : BufferBench) (b : NamedBuffer) (closing : Bool) (op : Operation α) :
    α × BufferBench :=
  match s.world with
  | .workshop route w =>
      let d := Workshop.delivery ScriptedTransport.transport route b.hook
        ScriptedTransport.noteRejection
      let (a, r) := op d ⟨b.buffer, s.monitor, w⟩
      (a, { s with world := .workshop route r.world, monitor := r.monitor }.put
        { b with buffer := r.buffer })
  | .manual m =>
      let (a, r) := op (ManualFlushes.delivery b.hook)
        ⟨b.buffer, s.monitor, if closing then m.hurry else m⟩
      (a, { s with world := .manual r.world.relax, monitor := r.monitor }.put
        { b with buffer := r.buffer })

/-- Drops a buffer and forgets it; `closing` says whether flushes that are ended by hand end before. -/
def forget (s : BufferBench) (closing : Bool) (b : NamedBuffer) : BufferBench :=
  let ((), s) := s.operate b closing fun d r => ((), r.drop d)
  { s with buffers := s.buffers.filter (·.name ≠ b.name) }

/-- Closes a buffer and forgets it. -/
def drop (s : BufferBench) (b : NamedBuffer) : BufferBench := s.forget true b

/-- Opens a buffer.  A buffer of the same name is dropped afterwards, and flushes that are ended by hand
stay open meanwhile: they may belong to other buffers. -/
def openBuffer (s : BufferBench) (name destination : String) (txn : View) (hook : Hook) : BufferBench :=
  let (buffer, monitor) := CallBuffer.opening destination txn s.limits s.policy s.monitor
  let s := { s with monitor }
  let s := (s.buffer? name).elim s (s.forget false)
  s.put { name, buffer, hook }

/-- Carries out every queued flush, and hands out what has been recorded. -/
def settle (s : BufferBench) : (List BatchCall × List RejectionEvent) × BufferBench :=
  let world := s.world.settle
  (world.record, { s with world := world.clearRecord })

end BufferBench

end Multiversion
