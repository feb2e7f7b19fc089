import Multiversion.Engine
import Multiversion.Packed.Visibility
import Multiversion.Simulation.LogDamage

/-!
# A workbench for engines

An engine whose store can be closed and opened again over a damaged log, together with regions, filters
and packed reads that are known by name.  The store is lost if its log cannot be opened; cells, clock
and background work live on without it.

* `Workbench.openStore`, `Workbench.reopen` — opening the store, perhaps in vain;
* `Workbench.examine`, `Workbench.accumulate` — named filters and packed reads, which remember what
  they have learnt;
* `Workbench.apply` — batches for named regions.
-/

namespace Multiversion

/-- Where the store of a workbench keeps its log. -/
inductive StoreKind where
  | single
  | partitioned
  -- A single store in memory, for which no time passes.
  | memory
  -- A partitioned store in memory, for which no time passes.
  | partitionedMemory
  deriving DecidableEq, Repr

namespace StoreKind

/-- The name of a kind. -/
def name : StoreKind → String
  | single => "single"
  | partitioned => "partitioned"
  | memory => "memory"
  | partitionedMemory => "partitioned_memory"

/-- The kind of a name. -/
def ofName? (s : String) : Option StoreKind :=
  [single, partitioned, memory, partitionedMemory].find? (·.name = s)

/-- Whether the store has partitions. -/
def isPartitioned : StoreKind → Bool
  | partitioned | partitionedMemory => true
  | single | memory => false

/-- Whether the store has a log on devices, and a clock. -/
def isLogged : StoreKind → Bool
  | single | partitioned => true
  | memory | partitionedMemory => false

end StoreKind

/-- A region that is known by name. -/
structure NamedRegion where
  region : Region
  resolves : Bool

/-- A packed read that is known by name. -/
structure PackedReader where
  query : PackedQuery
  view : Visibility

/-- An engine with named regions, filters and packed reads. -/
structure Workbench where
  -- The engine.  Its store counts only while it is not lost.
  engine : Engine
  kind : StoreKind
  config : StoreConfig
  -- After a failed opening: the devices on which the store could not be opened.
  lost : Option (List Device) := none
  regions : List NamedRegion := []
  filters : List (String × Visibility) := []
  packed : List (String × PackedReader) := []

namespace Workbench

/-- The devices of the log. -/
def devices (w : Workbench) : List Device :=
  if w.kind.isLogged then w.lost.getD w.engine.store.devices else []

/-- The size of the log, if there is one. -/
def logSize? (w : Workbench) : Option Nat :=
  if w.kind.isLogged then some (w.devices.foldl (fun total d => total + d.size) 0) else none

/-- The workbench after a change of every device. -/
def mapDevices (w : Workbench) (change : Device → Device) : Workbench :=
  if w.kind.isLogged then
    match w.lost with
    | some devices => { w with lost := some (devices.map change) }
    | none => { w with engine := { w.engine with store := w.engine.store.mapDevices change } }
  else w

/-- Opens a store of a kind on devices. -/
def openKind (kind : StoreKind) (config : StoreConfig) (devices : List Device) :
    Except TxnError TxnStore × List Device :=
  match kind with
  | .single => TxnStore.openSingle (devices.headD {}) config
  | .partitioned => TxnStore.openPartitioned devices config
  | .memory => (.ok (.single (Store.empty config)), [])
  | .partitionedMemory => (TxnStore.partitioned <$> PartitionedStore.empty config, [])

/-- Opens the store on devices; if that fails, the store is lost. -/
def openStore (w : Workbench) (devices : List Device) : Except TxnError Unit × Workbench :=
  match openKind w.kind w.config devices with
  | (.error e, devices) => (.error e, { w with lost := some devices })
  | (.ok store, _) => (.ok (), { w with engine := { w.engine with store }, lost := none })

/-- A workbench whose store is opened on devices that all hold the same bytes. -/
def start (engine : Engine) (kind : StoreKind) (config : StoreConfig) (log : Bytes) :
    Except TxnError Unit × Workbench :=
  let count := if kind.isPartitioned then config.partitions else 1
  let engine := { engine with keepsTime := kind.isLogged }
  openStore { engine, kind, config } (List.replicate count (Device.ofBytes log))

/-- Forgets regions, filters and the store, damages the log and opens it again. -/
def reopen (w : Workbench) (damage : LogDamage) (faults : Faults) : Except TxnError Unit × Workbench :=
  openStore { w with regions := [], filters := [], packed := [] }
    (w.devices.map fun device => damage.reopen device faults)

/-- The view recorded for a transaction. -/
def find (w : Workbench) (id : TxnId) : Except TxnError View := w.engine.directory.get id

/-- Names a filter of a reader. -/
def addFilter (w : Workbench) (name : String) (reader : View) : Except TxnError TxnId × Workbench :=
  match Visibility.load w.engine.directory reader with
  | .error e => (.error e, w)
  | .ok view => (.ok reader.id, { w with filters := (name, view) :: w.filters })

/-- Names a packed read of a reader. -/
def addPacked (w : Workbench) (name : String) (query : PackedQuery) (reader : View) :
    Except TxnError TxnId × Workbench :=
  match Visibility.load w.engine.directory reader with
  | .error e => (.error e, w)
  | .ok view => (.ok reader.id, { w with packed := (name, { query, view }) :: w.packed })

/-- Lets the filter of a name examine cells of a row; none if there is no such filter. -/
def examine {α : Type} (w : Workbench) (name : String)
    (look : Directory → Visibility → Except TxnError α × Visibility) :
    Option (Except TxnError α × List HandOff × Workbench) :=
  (w.filters.lookup name).map fun view =>
    let (answer, handOffs, view, engine) := w.engine.examine view look
    (answer, handOffs, { w with engine, filters := (name, view) :: w.filters })

/-- Assembles a packed row from cells with the packed read of a name; none if there is no such one. -/
def accumulate (w : Workbench) (name : String) (key : Bytes) (cells : List Cell) :
    Option (Except TxnError (Option PackedRow) × List HandOff × Workbench) :=
  (w.packed.lookup name).map fun p =>
    let (answer, handOffs, view, engine) :=
      w.engine.examine p.view fun d v => p.query.accumulate d v key cells
    (answer, handOffs, { w with engine, packed := (name, { p with view }) :: w.packed })

/-- Names a region. -/
def addRegion (w : Workbench) (region : Region) (resolves : Bool) : Workbench :=
  { w with regions := ⟨region, resolves⟩ :: w.regions }

/-- The region of a name. -/
def region? (w : Workbench) (name : String) : Option NamedRegion :=
  w.regions.find? (·.region.name = name)

/-- Sends a batch to the region of a name; none if there is no such region. -/
def apply (w : Workbench) (name : String) (txn : View) (rows : List Mutation) :
    Option (List Status × Workbench) :=
  (w.region? name).map fun r =>
    let (statuses, engine) := w.engine.applyBatch r.region r.resolves txn rows
    (statuses, { w with engine })

/-- Carries out the background work that is queued. -/
def settle (w : Workbench) : Workbench := { w with engine := w.engine.settle }

end Workbench

end Multiversion
