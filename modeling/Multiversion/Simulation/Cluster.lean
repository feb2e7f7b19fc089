import Multiversion.Pipeline.Transport
import Multiversion.Read
import Multiversion.Region
import Multiversion.Resolution.Resolver
import Multiversion.Simulation.Harness

/-!
# Clusters

Regions over adjoining key ranges, each with its own cells, over one harness.  A cluster is a transport:
it locates rows and applies batches.

* `Cluster.ofSplits` — split points cut the key space into regions;
* `Cluster.regionOf` — the region that holds a key;
* `Cluster.get`, `Cluster.scan` — transactional reads across regions;
* `Cluster.transport` — the cluster as the target of a write pipeline.
-/

namespace Multiversion

/-- A region with its cells. -/
structure Shard where
  region : Region
  cells : CellStore := {}

/-- Regions over one harness. -/
structure Cluster where
  harness : Harness
  shards : List Shard
  resolver : Option Resolver := none
  -- What becomes of stale cells; only those of the region at the start of the key space are ever
  -- touched.
  sweeper : Sweeper := .ignoring

namespace Cluster

/-- The name of a region. -/
def regionName (index : Nat) : String := s!"region-{index}"

/-- The ranges between split points: from the start of the key space to the first point, between
neighbouring points, and from the last point on. -/
def ranges (start : Bytes) : (splits : List Bytes) → List KeyRange
  | [] => [{ start, stop := none }]
  | split :: rest => { start, stop := some split } :: ranges split rest

/-- The regions that split points make. -/
def regions (splits : List Bytes) : List Region :=
  (ranges [] splits).zipIdx.map fun (range, index) => { name := regionName index, range }

/-- Empty regions between split points. -/
def ofSplits (harness : Harness) (splits : List Bytes) : Cluster where
  harness
  shards := (regions splits).map fun region => { region }

/-- The region that holds a key: the first one whose range the key lies in. -/
def regionOf? (c : Cluster) (key : Bytes) : Option Shard := c.shards.find? (·.region.contains key)

/-- The region of a name. -/
def named? (c : Cluster) (name : String) : Option Shard := c.shards.find? (·.region.name = name)

/-- The cluster with the cells of the named region replaced. -/
def setCells (c : Cluster) (name : String) (cells : CellStore) : Cluster :=
  { c with
    shards := c.shards.map fun s : Shard => if s.region.name = name then { s with cells } else s }

/-- Hands requests to the resolver, if there is one. -/
def request (c : Cluster) (rs : List Request) : Cluster :=
  { c with resolver := c.resolver.map (·.submitAll rs) }

/-- Hands over what a read left behind.  The sweeper works on the region that holds the empty key,
which need not be the first one: a region whose range is empty holds no key. -/
def post (c : Cluster) (outbox : Outbox) : Cluster :=
  let c := c.request outbox.requests
  match c.regionOf? [] with
  | none => c
  | some first =>
      let (sweeper, cells) := c.sweeper.receiveAll first.cells outbox.handOffs
      { c.setCells first.region.name cells with sweeper }

/-- Reads the value of a row as a reader sees it. -/
def get (c : Cluster) (reader : View) (key : Bytes) : Except TxnError (Option Bytes) × Cluster :=
  match c.regionOf? key with
  | none => (.ok none, c)
  | some shard =>
      let (answer, outbox) := Read.get c.harness.directory reader shard.cells key
      (answer.map fun row => row.map Mutation.value, c.post outbox)

/-- Reads all rows of some regions as a reader sees them, region by region. -/
def scanShards (c : Cluster) (reader : View) :
    (names : List String) → Except ReadError (List Mutation) × Cluster
  | [] => (.ok [], c)
  | name :: rest =>
      let cells := (c.named? name).elim {} Shard.cells
      match Read.scan c.harness.directory reader cells {} with
      | (.error e, outbox) => (.error e, c.post outbox)
      | (.ok rows, outbox) =>
          match (c.post outbox).scanShards reader rest with
          | (.error e, c) => (.error e, c)
          | (.ok others, c) => (.ok (rows ++ others), c)

/-- Reads all rows as a reader sees them. -/
def scan (c : Cluster) (reader : View) : Except ReadError (List Mutation) × Cluster :=
  c.scanShards reader (c.shards.map (·.region.name))

/-- Applies a batch to the named region. -/
def write (partition : String) (txn : View) (rows : List Mutation) (c : Cluster) :
    Except PipelineError (List Status) × Cluster :=
  match c.named? partition with
  | none => (.error (.transport partition "no such region"), c)
  | some shard =>
      let (statuses, requests, cells) :=
        shard.region.applyBatch c.harness.directory txn shard.cells rows
      (.ok statuses, (c.setCells partition cells).request requests)

/-- Names the region that holds a key. -/
def locate (key : Bytes) (c : Cluster) : Except PipelineError String × Cluster :=
  match c.regionOf? key with
  | none => (.error (.locate "key outside every region"), c)
  | some shard => (.ok shard.region.name, c)

/-- The cluster as the target of a write pipeline. -/
def transport : Transport Cluster where
  locate := locate
  write := write

/-- Lets the harness work. -/
def onHarness {α : Type} (c : Cluster) (operate : Harness → α × Harness) : α × Cluster :=
  let (answer, harness) := operate c.harness
  (answer, { c with harness })

/-- The harness after work of the resolver. -/
def withStore (c : Cluster) (work : Resolver → TxnStore → Millis → Resolver × TxnStore) : Cluster :=
  match c.resolver with
  | none => c
  | some resolver =>
      let (resolver, store) := work resolver c.harness.store 0
      { c with resolver := some resolver, harness := { c.harness with store } }

/-- Carries out the requests that are queued. -/
def settle (c : Cluster) : Cluster := c.withStore Resolver.drain

/-- Shuts the resolver down. -/
def stopResolver (c : Cluster) : Cluster := c.withStore Resolver.shutdown

end Cluster

end Multiversion
