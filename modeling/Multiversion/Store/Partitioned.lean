import Multiversion.Store.Basic

/-!
# Partitioned stores

A partitioned store routes every id to one of its partitions, by the id modulo their number.  Each
record has exactly one owner.
-/

namespace Multiversion

/-- A store split by id over at least one partition. -/
structure PartitionedStore where
  partitions : Array Store
  nonempty : 0 < partitions.size

namespace PartitionedStore

/-- A store over the given partitions. -/
def ofList (partitions : List Store) : Except TxnError PartitionedStore :=
  if h : 0 < partitions.toArray.size then .ok ⟨partitions.toArray, h⟩
  else .error (.invalidOperation .noPartitions)

/-- A store over empty partitions. -/
def empty (config : StoreConfig) : Except TxnError PartitionedStore :=
  ofList (List.replicate config.partitions (Store.empty config))

/-- Opens stores on devices in order, up to the first that fails.  The devices are returned too, since
opening may cut off partial frames. -/
def openEach (config : StoreConfig) : List Device → Except TxnError (List Store) × List Device
  | [] => (.ok [], [])
  | device :: rest =>
      match Store.openOn device config with
      | (.error e, device) => (.error e, device :: rest)
      | (.ok store, device) =>
          match openEach config rest with
          | (.error e, devices) => (.error e, device :: devices)
          | (.ok stores, devices) => (.ok (store :: stores), device :: devices)

/-- Opens a store over the given devices. -/
def openOn (devices : List Device) (config : StoreConfig) :
    Except TxnError PartitionedStore × List Device :=
  match openEach config devices with
  | (.error e, devices) => (.error e, devices)
  | (.ok stores, devices) => (ofList stores, devices)

/-- The number of partitions. -/
def count (p : PartitionedStore) : Nat := p.partitions.size

/-- The index of the partition that owns an id. -/
def owner (p : PartitionedStore) (id : TxnId) : Fin p.partitions.size :=
  ⟨id.val.toNat % p.partitions.size, Nat.mod_lt _ p.nonempty⟩

/-- The partition that owns an id. -/
def partition (p : PartitionedStore) (id : TxnId) : Store := p.partitions[p.owner id]

/-- Replaces the partition that owns an id. -/
def setPartition (p : PartitionedStore) (id : TxnId) (s : Store) : PartitionedStore where
  partitions := p.partitions.set (p.owner id) s
  nonempty := by simpa using p.nonempty

/-- Submits one request to the partition that owns its id. -/
def submit (p : PartitionedStore) (now : Millis) (change : Change) :
    Except TxnError Bool × PartitionedStore :=
  let (answer, s) := (p.partition change.txn).submit now change
  (answer, p.setPartition change.txn s)

/-- Read access at a clock reading. -/
def directory (p : PartitionedStore) (now : Millis) : Directory where
  find? id := ((p.partition id).directory now).find? id
  isExpired id := ((p.partition id).directory now).isExpired id

/-- The active transactions of all partitions with a begin timestamp in `[lower, upper)`. -/
def active (p : PartitionedStore) (lower upper : Timestamp) (table : Option String) : List BeginKey :=
  (p.partitions.toList.flatMap (·.active lower upper table)).mergeSort fun a b => (compare a b).isLE

/-- The counters of all partitions together. -/
def stats (p : PartitionedStore) : StoreStats :=
  p.partitions.toList.foldl (fun total s => total.add s.stats) {}

end PartitionedStore

end Multiversion
