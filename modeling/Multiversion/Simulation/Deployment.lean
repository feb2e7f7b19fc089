import Multiversion.Pipeline.Coordinator
import Multiversion.Simulation.Cluster
import Multiversion.Simulation.FaultInjection

/-!
# Deployments

A coordinator over a cluster with injected faults, together with transactions and buffers that are
known by name.  After each use of a pooled buffer the deployment waits for its flushes; statuses that
it has to collect on the way are kept until they are asked for.

* `Deployment.making` — begins a transaction and keeps its view under a name;
* `Deployment.openChannel`, `use`, `useEach`, `take`, `close`, `dropChannel` — named buffers;
* `Deployment.settle` — carries out the requests queued for the resolver.
-/

namespace Multiversion

/-- A buffer that is known by name. -/
structure NamedChannel where
  name : String
  channel : Channel
  kept : List RowStatus := []

/-- A coordinator over a cluster with injected faults. -/
structure Deployment where
  coordinator : Coordinator (FaultInjection Cluster)
  views : List (String × View) := []
  channels : List NamedChannel := []

namespace Deployment

/-- The transport of every deployment. -/
def transport : Transport (FaultInjection Cluster) := FaultInjection.transport Cluster.transport

/-- An operation of a buffer of a deployment. -/
abbrev Operation (α : Type) :=
  Delivery (Workshop (FaultInjection Cluster)) → Buffering (Workshop (FaultInjection Cluster)) →
    α × Buffering (Workshop (FaultInjection Cluster))

/-- The cluster. -/
def cluster (s : Deployment) : Cluster := s.coordinator.world.inner

/-- Lets the transport work. -/
def onTransport {α : Type} (s : Deployment)
    (op : FaultInjection Cluster → α × FaultInjection Cluster) : α × Deployment :=
  let (a, world) := op s.coordinator.world
  (a, { s with coordinator := s.coordinator.mapWorld fun _ => world })

/-- Lets the cluster work. -/
def onCluster {α : Type} (s : Deployment) (op : Cluster → α × Cluster) : α × Deployment :=
  s.onTransport fun f => let (a, inner) := op f.inner; (a, { f with inner })

/-- Lets the harness work. -/
def onHarness {α : Type} (s : Deployment) (op : Harness → α × Harness) : α × Deployment :=
  s.onCluster fun c => c.onHarness op

/-- Orders a fault. -/
def order (s : Deployment) (fault : Fault) : Deployment :=
  { s with coordinator := s.coordinator.mapWorld fun f => f.order fault }

/-- The view kept under a name. -/
def view? (s : Deployment) (name : String) : Option View := s.views.lookup name

/-- Begins a transaction and keeps its view under a name. -/
def making (s : Deployment) (name : String) (op : Harness → Except TxnError View × Harness) :
    Except TxnError View × Deployment :=
  match s.onHarness op with
  | (.error e, s) => (.error e, s)
  | (.ok view, s) => (.ok view, { s with views := (name, view) :: s.views })

/-- The buffer of a name. -/
def channel? (s : Deployment) (name : String) : Option NamedChannel :=
  s.channels.find? (·.name = name)

/-- Puts a buffer in the place of the one of the same name. -/
def put (s : Deployment) (b : NamedChannel) : Deployment :=
  { s with channels := b :: s.channels.filter (·.name ≠ b.name) }

/-- Lets a buffer operate. -/
def operate {α : Type} (s : Deployment) (b : NamedChannel) (op : Operation α) :
    α × NamedChannel × Deployment :=
  let (a, channel, coordinator) := s.coordinator.onBuffer transport b.channel op
  let b := { b with channel }
  (a, b, { s with coordinator }.put b)

/-- Waits for the flushes of a pooled buffer and keeps the statuses collected. -/
def await (s : Deployment) (b : NamedChannel) : NamedChannel × Deployment :=
  match b.channel.route with
  | .direct => (b, s)
  | .pooled =>
      let s := { s with coordinator := s.coordinator.rest transport }
      let (rows, b, s) := s.operate b fun d r => r.takeCompleted d
      let b := { b with kept := b.kept ++ rows }
      (b, s.put b)

/-- Lets a buffer operate, and waits for its flushes. -/
def use {α : Type} (s : Deployment) (b : NamedChannel) (op : Operation α) :
    α × NamedChannel × Deployment :=
  let (a, b, s) := s.operate b op
  (a, s.await b)

/-- Submits rows to a buffer in order, up to the first error, and waits after each. -/
def useEach (s : Deployment) (b : NamedChannel) :
    List Mutation → Except PipelineError Unit × Deployment
  | [] => (.ok (), s)
  | row :: rest =>
      match s.use b fun d r => r.add d row with
      | (.error e, _, s) => (.error e, s)
      | (.ok _, b, s) => s.useEach b rest

/-- Hands out statuses with those kept before them. -/
def handOut (s : Deployment) (b : NamedChannel) (op : Operation (List RowStatus)) :
    List RowStatus × Deployment :=
  let (rows, _, s) := s.operate { b with kept := [] } op
  (b.kept ++ rows, s)

/-- Hands out the statuses that are there. -/
def take (s : Deployment) (b : NamedChannel) : List RowStatus × Deployment :=
  s.handOut b fun d r => r.takeCompleted d

/-- Closes a buffer. -/
def close (s : Deployment) (b : NamedChannel) : List RowStatus × Deployment :=
  s.handOut b fun d r => r.close d

/-- Closes a buffer and forgets it. -/
def dropChannel (s : Deployment) (b : NamedChannel) : Deployment :=
  let (_, _, s) := s.operate b fun d r => ((), r.drop d)
  { s with channels := s.channels.filter (·.name ≠ b.name) }

/-- Opens a buffer.  A buffer of the same name is dropped afterwards. -/
def openChannel (s : Deployment) (name destination : String) (txn : View) (route : Route)
    (limits : BufferLimits) (hook : Hook) : Except PipelineError BufferLimits × Deployment :=
  match s.coordinator.openBuffer destination txn route limits hook with
  | (.error e, coordinator) => (.error e, { s with coordinator })
  | (.ok channel, coordinator) =>
      let s := { s with coordinator }
      let s := (s.channel? name).elim s s.dropChannel
      (.ok channel.buffer.limits, s.put { name, channel })

/-- Carries out the requests queued for the resolver. -/
def settle (s : Deployment) : Deployment := (s.onCluster fun c => ((), c.settle)).2

end Deployment

end Multiversion
