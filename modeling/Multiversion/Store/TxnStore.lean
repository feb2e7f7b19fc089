import Multiversion.Store.Partitioned

/-!
# Either kind of store

The one interface through which readers, writers and background work see a single or a partitioned
store.
-/

namespace Multiversion

/-- A transaction store of either kind. -/
inductive TxnStore where
  | single (store : Store)
  | partitioned (store : PartitionedStore)

namespace TxnStore

/-- Opens a single store on a device. -/
def openSingle (device : Device) (config : StoreConfig) : Except TxnError TxnStore × List Device :=
  let (store, device) := Store.openOn device config
  (single <$> store, [device])

/-- Opens a partitioned store on devices. -/
def openPartitioned (devices : List Device) (config : StoreConfig) :
    Except TxnError TxnStore × List Device :=
  let (store, devices) := PartitionedStore.openOn devices config
  (partitioned <$> store, devices)

/-- The devices under the logs of all partitions. -/
def devices (t : TxnStore) : List Device :=
  match t with
  | single s => [s.log.device]
  | partitioned p => p.partitions.toList.map (·.log.device)

/-- Submits one request; the answer tells whether it changed anything. -/
def submit (t : TxnStore) (now : Millis) (change : Change) : Except TxnError Bool × TxnStore :=
  match t with
  | single s => let (answer, s) := s.submit now change; (answer, single s)
  | partitioned p => let (answer, p) := p.submit now change; (answer, partitioned p)

/-- Read access at a clock reading. -/
def directory (t : TxnStore) (now : Millis) : Directory :=
  match t with
  | single s => s.directory now
  | partitioned p => p.directory now

/-- The ids of the active transactions with a begin timestamp in `[lower, upper)`, by begin timestamp
and id. -/
def activeIds (t : TxnStore) (lower upper : Timestamp) (table : Option String) : List TxnId :=
  (match t with
    | single s => s.active lower upper table
    | partitioned p => p.active lower upper table).map BeginKey.id

/-- Counters. -/
def stats : TxnStore → StoreStats
  | single s => s.stats
  | partitioned p => p.stats

/-- The partitions; a single store is its own. -/
def parts : TxnStore → List Store
  | single s => [s]
  | partitioned p => p.partitions.toList

/-- The store in which every partition has been changed. -/
def mapParts (t : TxnStore) (change : Store → Store) : TxnStore :=
  match t with
  | single s => single (change s)
  | partitioned p => partitioned ⟨p.partitions.map change, by simpa using p.nonempty⟩

/-- The partition that an id belongs to. -/
def partOf (t : TxnStore) (id : TxnId) : Store :=
  match t with
  | single s => s
  | partitioned p => p.partition id

/-- The store in which the device under every log has been changed. -/
def mapDevices (t : TxnStore) (change : Device → Device) : TxnStore :=
  t.mapParts fun s => { s with log := { s.log with device := change s.log.device } }

/-- The length of all logs together. -/
def logSize (t : TxnStore) : Nat := t.parts.foldl (fun total s => total + s.log.size) 0

end TxnStore

end Multiversion
