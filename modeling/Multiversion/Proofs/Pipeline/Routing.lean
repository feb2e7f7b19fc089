import Mathlib.Data.List.Pairwise
import Multiversion.Proofs.Pipeline.Clusters
import Multiversion.Proofs.Visibility.Scans

/-!
# Routing in a cluster

A row is written in the region that is located for its key, and read in the region that the key is found in,
and both are the first region that the key lies in.  Regions between ascending split points follow each other
without an overlap.  So there is only one such region then, no other one ever holds a version of the row, and
scanning one region after the other gives what point reads give, in key order.

* `Cluster.Housed` — the regions are those between the split points, and a region holds versions of its own
  rows only; `ClusterCall` — what keeps it so;
* `Cluster.ranges_separated` — ascending split points separate the regions;
* `Cluster.scanShards_eq` — a scan over some regions, none of which it changes.

Main statement: `Cluster.routing_agrees` — writing, point reads and scans agree on where a row is.
-/

namespace Multiversion

namespace Region

variable {d : Directory} {txn : View}

/-- Rows that are written leave other rows alone. -/
theorem versions_putAll {rows : List Mutation} {key : Bytes} (h : ∀ m ∈ rows, m.key ≠ key)
    (cells : CellStore) : (putAll txn rows cells).versions key = cells.versions key := by
  induction rows generalizing cells with
  | nil => rfl
  | cons m rest ih =>
      obtain ⟨hm, hrest⟩ := List.forall_mem_cons.1 h
      exact (ih hrest _).trans ((CellStore.versions_put ..).trans (if_neg hm))

/-- A batch writes rows of its own that belong to the region. -/
theorem exists_putAll_of_applyBatch (r : Region) (d : Directory) (txn : View) (cells : CellStore)
    (batch : List Mutation) :
    ∃ rows, (r.applyBatch d txn cells batch).2.2 = putAll txn rows cells ∧
      ∀ m ∈ rows, r.contains m.key = true := by
  refine ⟨_, (applyBatch_eq r d txn cells batch).2, fun m hm => ?_⟩
  exact (takes_eq_true_iff.1 (takes_of_answer (List.mem_filter.1 hm).2)).1

/-- A mutation that does not belong to the region does not succeed. -/
theorem not_isSuccess_of_outside {r : Region} {cells : CellStore} {batch : List Mutation} {i : Nat}
    {m : Mutation} {status : Status} (hm : batch[i]? = some m) (houtside : r.contains m.key = false)
    (hstatus : (r.applyBatch d txn cells batch).1[i]? = some status) : status.isSuccess = false := by
  rw [(applyBatch_eq r d txn cells batch).1, List.getElem?_map, hm] at hstatus
  cases hstatus
  by_contra hsuccess
  have htaken := takes_of_answer (by simpa using hsuccess)
  exact Bool.false_ne_true (houtside.symm.trans (takes_eq_true_iff.1 htaken).1)

end Region

namespace Cluster

section Ranges

variable {start key : Bytes} {splits : List Bytes}

/-- Ascending split points: no range begins before the first one does. -/
theorem start_le_of_mem_ranges (hsplits : (start :: splits).Pairwise (compare · · = .lt))
    {range : KeyRange} (hrange : range ∈ ranges start splits) : (compare start range.start).isLE = true := by
  induction splits generalizing start with
  | nil =>
      obtain rfl := List.mem_singleton.1 hrange
      exact Std.ReflCmp.isLE_rfl
  | cons split rest ih =>
      obtain ⟨hfirst, hrest⟩ := List.pairwise_cons.1 hsplits
      rcases List.mem_cons.1 hrange with rfl | hrange
      · exact Std.ReflCmp.isLE_rfl
      · have hstart : (compare start split).isLE = true := by rw [hfirst split List.mem_cons_self]; rfl
        exact Std.TransCmp.isLE_trans hstart (ih hrest hrange)

/-- **Ascending split points separate the ranges**: the keys of a range lie below those of the ranges behind
it. -/
theorem ranges_separated (hsplits : splits.Pairwise (compare · · = .lt)) (start : Bytes) :
    (ranges start splits).Pairwise fun range next =>
      ∀ key key', range.contains key = true → next.contains key' = true → compare key key' = .lt := by
  induction splits generalizing start with
  | nil => exact List.pairwise_singleton _ _
  | cons split rest ih =>
      obtain ⟨-, hrest⟩ := List.pairwise_cons.1 hsplits
      refine List.pairwise_cons.2 ⟨fun next hnext key key' hkey hkey' => ?_, ih hrest split⟩
      have hbelow : compare key split = .lt := by
        simpa [KeyRange.contains, Ordering.isLT_iff_eq_lt] using (Bool.and_eq_true_iff.1 hkey).2
      have habove : (compare split key').isLE = true :=
        Std.TransCmp.isLE_trans (start_le_of_mem_ranges hsplits hnext) (Bool.and_eq_true_iff.1 hkey').1
      exact Std.TransCmp.lt_of_lt_of_isLE hbelow habove

theorem regions_separated (hsplits : splits.Pairwise (compare · · = .lt)) :
    (regions splits).Pairwise fun r next =>
      ∀ key key', r.contains key = true → next.contains key' = true → compare key key' = .lt := by
  have hranges := ranges_separated hsplits []
  rw [← List.zipIdx_map_fst 0 (ranges [] splits), List.pairwise_map] at hranges
  rw [regions, List.pairwise_map]
  exact hranges

end Ranges

/-- A cluster whose regions are those between the split points, each with versions of its own rows only. -/
structure Housed (splits : List Bytes) (c : Cluster) : Prop where
  regions : c.shards.map Shard.region = regions splits
  own : ∀ shard ∈ c.shards, ∀ key, shard.cells.versions key ≠ [] → shard.region.contains key = true

end Cluster

/-- What is done with a cluster. -/
inductive ClusterCall where
  | write (name : String) (txn : View) (rows : List Mutation)
  | get (reader : View) (key : Bytes)
  | scan (reader : View)
  -- The sweeper applies a hand-off that it has queued.
  | sweep (name : String) (h : HandOff)
  -- Transactions begin and end and the resolver works, or another resolver or sweeper takes over.
  | surround (harness : Harness) (resolver : Option Resolver) (sweeper : Sweeper)

namespace Cluster

/-- The cluster after a call. -/
def call (c : Cluster) : ClusterCall → Cluster
  | .write name txn rows => (c.write name txn rows).2
  | .get reader key => (c.get reader key).2
  | .scan reader => (c.scan reader).2
  | .sweep name h =>
      match c.named? name with
      | none => c
      | some shard => c.setCells name (h.applyTo shard.cells).2
  | .surround harness resolver sweeper => { c with harness, resolver, sweeper }

/-- The cluster after some calls. -/
def calls (c : Cluster) (cs : List ClusterCall) : Cluster := cs.foldl call c

variable {c : Cluster} {splits : List Bytes} {shard : Shard} {key : Bytes}

theorem regionOf?_setCells (c : Cluster) (name : String) (cells : CellStore) (key : Bytes) :
    (c.setCells name cells).regionOf? key =
      (c.regionOf? key).map fun s => if s.region.name = name then { s with cells } else s := by
  rw [regionOf?, setCells, List.find?_map]
  refine congrArg (Option.map _) (congrArg (List.find? · c.shards) (funext fun s => ?_))
  rw [Function.comp_apply]
  split <;> rfl

namespace Housed

theorem wellSplit (h : Housed splits c) : c.WellSplit := wellSplit_of_regions h.regions

theorem ofSplits (harness : Harness) (splits : List Bytes) : Housed splits (ofSplits harness splits) where
  regions := by
    rw [Cluster.ofSplits, List.map_map]
    exact List.map_id _
  own shard hshard key hkey := by
    obtain ⟨region, -, rfl⟩ := List.mem_map.1 hshard
    exact absurd rfl hkey

/-- New cells of a region may hold what it held, and versions of rows that belong to it. -/
theorem setCells (h : Housed splits c) (hshard : shard ∈ c.shards) {cells : CellStore}
    (hcells : ∀ key, cells.versions key ≠ [] →
      shard.cells.versions key ≠ [] ∨ shard.region.contains key = true) :
    Housed splits (c.setCells shard.region.name cells) where
  regions := by
    rw [← h.regions, Cluster.setCells, List.map_map]
    refine List.map_congr_left fun s _ => ?_
    rw [Function.comp_apply]
    split <;> rfl
  own s hs key hkey := by
    obtain ⟨old, hold, rfl⟩ := List.mem_map.1 hs
    split at hkey
    · rename_i hname
      obtain rfl := List.inj_on_of_nodup_map h.wellSplit.names hold hshard hname
      rw [if_pos rfl]
      rcases hcells key hkey with hheld | hcontains
      · exact h.own old hold key hheld
      · exact hcontains
    · rename_i hother
      rw [if_neg hother]
      exact h.own old hold key hkey

theorem surround (h : Housed splits c) (harness : Harness) (resolver : Option Resolver)
    (sweeper : Sweeper) : Housed splits { c with harness, resolver, sweeper } := ⟨h.regions, h.own⟩

theorem write (h : Housed splits c) (name : String) (txn : View) (rows : List Mutation) :
    Housed splits (c.write name txn rows).2 := by
  unfold Cluster.write
  split
  · exact h
  · rename_i shard hnamed
    obtain ⟨hshard, rfl⟩ := of_named? hnamed
    obtain ⟨written, hcells, hown⟩ :=
      shard.region.exists_putAll_of_applyBatch c.harness.directory txn shard.cells rows
    refine (h.setCells hshard fun key hkey => ?_).surround _ _ _
    by_cases hwritten : ∃ m ∈ written, m.key = key
    · obtain ⟨m, hm, rfl⟩ := hwritten
      exact .inr (hown m hm)
    · rw [hcells, Region.versions_putAll fun m hm hkey => hwritten ⟨m, hm, hkey⟩] at hkey
      exact .inl hkey

/-- A hand-off puts no version where there was none. -/
theorem versions_of_applyTo {h : HandOff} {cells : CellStore} (hkey : (h.applyTo cells).2.versions key ≠ []) :
    cells.versions key ≠ [] := by
  intro hnone
  rw [HandOff.applyTo_eq, CellStore.versions_changeRow, hnone] at hkey
  split at hkey
  · cases h <;> exact hkey rfl
  · exact hkey rfl

theorem versions_of_receiveAll {s : Sweeper} {cells : CellStore} {handOffs : List HandOff}
    (hkey : (s.receiveAll cells handOffs).2.versions key ≠ []) : cells.versions key ≠ [] := by
  induction handOffs generalizing s cells with
  | nil => exact hkey
  | cons h rest ih =>
      have hreceive : (s.receive cells h).2.versions key ≠ [] := ih hkey
      cases s with
      | ignoring => exact hreceive
      | prompt => exact versions_of_applyTo hreceive
      | queued queue accepting applied => cases accepting <;> exact hreceive

theorem sweep (h : Housed splits c) (name : String) (handOff : HandOff) :
    Housed splits (c.call (.sweep name handOff)) := by
  simp only [call]
  split
  · exact h
  · rename_i shard hnamed
    obtain ⟨hshard, rfl⟩ := of_named? hnamed
    exact h.setCells hshard fun key hkey => .inl (versions_of_applyTo hkey)

theorem post (h : Housed splits c) (outbox : Outbox) : Housed splits (c.post outbox) := by
  have hrequested : Housed splits (c.request outbox.requests) := h.surround _ _ _
  simp only [Cluster.post]
  split
  · exact hrequested
  · rename_i first hfirst
    exact (hrequested.setCells (of_regionOf? hfirst).1 fun key hkey =>
      .inl (versions_of_receiveAll hkey)).surround _ _ _

theorem get (h : Housed splits c) (reader : View) (key : Bytes) : Housed splits (c.get reader key).2 := by
  unfold Cluster.get
  split
  · exact h
  · exact h.post _

theorem scanShards (h : Housed splits c) (reader : View) (names : List String) :
    Housed splits (c.scanShards reader names).2 := by
  induction names generalizing c with
  | nil => exact h
  | cons name rest ih =>
      unfold Cluster.scanShards
      dsimp only
      split
      · exact h.post _
      · rename_i outbox _
        have hrest := ih (h.post outbox)
        split <;> rename_i hscan <;> rwa [hscan] at hrest

/-- **Whatever is done with a cluster**, its regions hold versions of their own rows only. -/
theorem calls (h : Housed splits c) (cs : List ClusterCall) : Housed splits (c.calls cs) := by
  induction cs generalizing c with
  | nil => exact h
  | cons first rest ih =>
      refine ih ?_
      cases first with
      | write name txn rows => exact h.write name txn rows
      | get reader key => exact h.get reader key
      | scan reader => exact h.scanShards reader _
      | sweep name handOff => exact h.sweep name handOff
      | surround harness resolver sweeper => exact h.surround harness resolver sweeper

section Ascending

variable (h : Housed splits c) (hsplits : splits.Pairwise (compare · · = .lt))
include h hsplits

theorem shards_separated :
    c.shards.Pairwise fun s next => ∀ key key', s.region.contains key = true →
      next.region.contains key' = true → compare key key' = .lt := by
  have hregions := regions_separated hsplits
  rwa [← h.regions, List.pairwise_map] at hregions

/-- **One region only** holds a key. -/
theorem eq_of_contains {other : Shard} (hshard : shard ∈ c.shards) (hother : other ∈ c.shards)
    (hkey : shard.region.contains key = true) (hkey' : other.region.contains key = true) :
    shard = other := by
  by_contra hne
  let Apart (s next : Shard) : Prop := ¬ (s.region.contains key = true ∧ next.region.contains key = true)
  have hapart : c.shards.Pairwise Apart := (shards_separated h hsplits).imp fun hlt hboth => by
    have hself : compare key key = .eq := Std.ReflCmp.compare_self
    cases hself.symm.trans (hlt key key hboth.1 hboth.2)
  have : Std.Symm Apart := ⟨fun _ _ hapart hboth => hapart hboth.symm⟩
  exact hapart.forall hshard hother hne ⟨hkey, hkey'⟩

/-- The region that a key is found in is the one that holds it. -/
theorem regionOf?_of_contains (hshard : shard ∈ c.shards) (hkey : shard.region.contains key = true) :
    c.regionOf? key = some shard := by
  obtain ⟨found, hfound⟩ := h.wellSplit.covers key
  obtain ⟨hmem, hcontains⟩ := of_regionOf? hfound
  rw [hfound, eq_of_contains h hsplits hshard hmem hkey hcontains]

end Ascending

end Housed

section Reading

variable {d : Directory} {reader : View} {l : Lineage}

/-- What a reader reads of the rows of a region, in key order. -/
def rowsOf (l : Lineage) (d : Directory) (shard : Shard) : List Mutation :=
  (shard.cells.storedIn {}).filterMap fun key => (l.reads d shard.cells key).toOption.join

theorem setCells_same (h : c.WellSplit) (hshard : shard ∈ c.shards) :
    c.setCells shard.region.name shard.cells = c := by
  have hshards : c.shards.map (fun s => if s.region.name = shard.region.name then
      { s with cells := shard.cells } else s) = c.shards := by
    refine (List.map_congr_left fun s hs => ?_).trans (List.map_id c.shards)
    split
    · rename_i hname
      obtain rfl := List.inj_on_of_nodup_map h.names hs hshard hname
      rfl
    · rfl
  rw [setCells, hshards]

/-- Without a resolver, and with a sweeper that ignores everything, reads leave nothing behind. -/
theorem post_eq (h : c.WellSplit) (hresolver : c.resolver = none) (hsweeper : c.sweeper = .ignoring)
    (outbox : Outbox) : c.post outbox = c := by
  have hrequest : c.request outbox.requests = c := by
    obtain ⟨harness, shards, resolver, sweeper⟩ := c
    obtain rfl : resolver = none := hresolver
    rfl
  have hignored : ∀ (cells : CellStore) (handOffs : List HandOff),
      Sweeper.ignoring.receiveAll cells handOffs = (.ignoring, cells) := by
    intro cells handOffs
    induction handOffs with
    | nil => rfl
    | cons h rest ih => exact ih
  obtain ⟨first, hfirst⟩ := h.covers []
  simp only [post, hrequest, hfirst, hsweeper, hignored,
    setCells_same h (of_regionOf? hfirst).1]
  rw [← hsweeper]

/-- What a point read answers at a reading of the clock. -/
def getAt (c : Cluster) (now : Millis) (reader : View) (key : Bytes) : Except TxnError (Option Bytes) :=
  match c.regionOf? key with
  | none => .ok none
  | some shard =>
      (Read.get (c.harness.store.directory now) reader shard.cells key).1.map (Option.map Mutation.value)

/-- What a scan answers at a reading of the clock, if it leaves nothing behind from one region to the
next. -/
def scanAt (c : Cluster) (now : Millis) (reader : View) : Except ReadError (List Mutation) :=
  List.flatten <$> c.shards.mapM fun s => (Read.scan (c.harness.store.directory now) reader s.cells {}).1

theorem get_eq_getAt (hpost : ∀ outbox, c.post outbox = c) (reader : View) (key : Bytes) :
    c.get reader key = (c.getAt 0 reader key, c) := by
  rw [get, getAt]
  cases c.regionOf? key with
  | none => rfl
  | some shard => exact Prod.ext rfl (hpost _)

/-- Regions that a scan does not change are read one after the other. -/
theorem scan_eq_scanAt (h : c.WellSplit) (hpost : ∀ outbox, c.post outbox = c) (reader : View) :
    c.scan reader = (c.scanAt 0 reader, c) := by
  have hall : ∀ shards : List Shard, (∀ s ∈ shards, s ∈ c.shards) →
      c.scanShards reader (shards.map (·.region.name)) =
        (List.flatten <$> shards.mapM fun s => (Read.scan c.harness.directory reader s.cells {}).1, c) := by
    intro shards hshards
    induction shards with
    | nil => rfl
    | cons s rest ih =>
        obtain ⟨hs, hrest⟩ := List.forall_mem_cons.1 hshards
        rw [List.map_cons, scanShards, h.named?_eq hs, Option.elim_some, List.mapM_cons]
        cases Read.scan c.harness.directory reader s.cells {} with
        | mk answer outbox =>
            cases answer with
            | error e => simp only [hpost]; rfl
            | ok rows =>
                simp only [hpost, ih hrest]
                cases rest.mapM fun s => (Read.scan c.harness.directory reader s.cells {}).1 <;> rfl
  exact hall c.shards fun _ hs => hs

theorem scanAt_eq {now : Millis} (hload : Lineage.load (c.harness.store.directory now) reader = .ok l)
    (hreads : ∀ s ∈ c.shards, ∀ key, ∃ m, l.reads (c.harness.store.directory now) s.cells key = .ok m) :
    c.scanAt now reader = .ok (c.shards.flatMap (rowsOf l (c.harness.store.directory now))) := by
  rw [scanAt]
  generalize c.shards = shards at hreads
  induction shards with
  | nil => rfl
  | cons s rest ih =>
      obtain ⟨hs, hrest⟩ := List.forall_mem_cons.1 hreads
      have hscan : (Read.scan (c.harness.store.directory now) reader s.cells {}).1 =
          .ok (rowsOf l (c.harness.store.directory now) s) :=
        (Read.scan_eq_ok_iff hload rfl).2 ⟨fun key _ => hs key, rfl⟩
      have hothers := ih hrest
      rw [List.mapM_cons, hscan]
      cases hmap : rest.mapM fun s => (Read.scan (c.harness.store.directory now) reader s.cells {}).1 with
      | error e => simp [hmap, Functor.map, Except.map] at hothers
      | ok others =>
          rw [hmap] at hothers
          have hflat : others.flatten = rest.flatMap (rowsOf l (c.harness.store.directory now)) :=
            Except.ok.inj hothers
          rw [List.flatMap_cons, ← hflat]
          rfl

/-- What is read of a row is an upsert of its key. -/
theorem eq_of_reads {cells : CellStore} {m : Mutation} (h : l.reads d cells key = .ok (some m)) :
    m = { kind := .upsert, key, value := m.value } := by
  unfold Lineage.reads Lineage.readRow at h
  cases hfirst : l.firstSeen d (cells.get key .everything) with
  | error e => simp [hfirst, Except.map] at h
  | ok c =>
      simp only [hfirst, Except.map, Except.ok.injEq, Read.pairOf, Option.map_eq_some_iff] at h
      obtain ⟨value, -, rfl⟩ := h
      rfl

/-- A row of which something is read has a version. -/
theorem get_ne_nil_of_reads {cells : CellStore} {m : Mutation} (h : l.reads d cells key = .ok (some m)) :
    cells.get key .everything ≠ [] := by
  intro hnone
  rw [Lineage.reads, hnone] at h
  cases h

theorem mem_rowsOf {m : Mutation} :
    m ∈ rowsOf l d shard ↔ l.reads d shard.cells m.key = .ok (some m) := by
  rw [rowsOf, List.mem_filterMap]
  constructor
  · rintro ⟨key, -, hread⟩
    obtain rfl := Lineage.key_of_readRow hread
    cases hrow : l.reads d shard.cells m.key with
    | error e =>
        rw [hrow] at hread
        cases hread
    | ok found =>
        rw [hrow] at hread
        exact congrArg Except.ok hread
  · intro hread
    have heverywhere : ({} : KeyRange).contains m.key = true := by cases m.key <;> rfl
    refine ⟨m.key, CellStore.mem_storedIn_of_get heverywhere (get_ne_nil_of_reads hread), ?_⟩
    rw [hread]
    rfl

theorem getAt_eq {now : Millis} (hload : Lineage.load (c.harness.store.directory now) reader = .ok l)
    (hshard : c.regionOf? key = some shard) :
    c.getAt now reader key =
      (l.reads (c.harness.store.directory now) shard.cells key).map (Option.map Mutation.value) := by
  rw [getAt, hshard]
  exact congrArg (Except.map _) (Read.get_spec hload shard.cells key).1

theorem exists_reads {cells : CellStore} (h : l.Resolves d (cells.versions key)) :
    ∃ m, l.reads d cells key = .ok m :=
  ⟨_, Lineage.firstSeen_map (fun c hc => h c (List.mem_filter.1 hc).1) key⟩

/-- What is read in a region has its key there. -/
theorem Housed.contains_of_mem_rowsOf (h : Housed splits c) (hshard : shard ∈ c.shards) {m : Mutation}
    (hm : m ∈ rowsOf l d shard) : shard.region.contains m.key = true := by
  refine h.own shard hshard m.key fun hnone => get_ne_nil_of_reads (mem_rowsOf.1 hm) ?_
  rw [CellStore.get_everything, hnone]
  rfl

/-- **A scan lists what point reads find**, in key order. -/
theorem Housed.scanAt_iff_getAt (h : Housed splits c) (hsplits : splits.Pairwise (compare · · = .lt))
    {now : Millis} (hload : Lineage.load (c.harness.store.directory now) reader = .ok l)
    (hresolves : ∀ shard ∈ c.shards, ∀ key,
      l.Resolves (c.harness.store.directory now) (shard.cells.versions key)) :
    ∃ rows, c.scanAt now reader = .ok rows ∧
      (rows.Pairwise fun m next => compare m.key next.key = .lt) ∧
      ∀ m, m ∈ rows ↔ m.kind = .upsert ∧ c.getAt now reader m.key = .ok (some m.value) := by
  refine ⟨_, scanAt_eq hload fun s hs key => exists_reads (hresolves s hs key),
    List.pairwise_flatMap.2 ⟨fun s _ => ?_, ?_⟩, fun m => ?_⟩
  · exact s.cells.ordered_filterMap_storedIn {} Lineage.key_of_readRow
  · -- Each region holds versions of its own rows only, and the regions ascend.
    refine (h.shards_separated hsplits).imp_of_mem fun hs hnext hlt a ha b hb => ?_
    exact hlt a.key b.key (h.contains_of_mem_rowsOf hs ha) (h.contains_of_mem_rowsOf hnext hb)
  · rw [List.mem_flatMap]
    constructor
    · rintro ⟨shard, hshard, hm⟩
      have hread := mem_rowsOf.1 hm
      have hregion := h.regionOf?_of_contains hsplits hshard (h.contains_of_mem_rowsOf hshard hm)
      rw [getAt_eq hload hregion, hread]
      exact ⟨congrArg Mutation.kind (eq_of_reads hread), rfl⟩
    · rintro ⟨hkind, hget⟩
      obtain ⟨shard, hregion⟩ := h.wellSplit.covers m.key
      refine ⟨shard, (of_regionOf? hregion).1, mem_rowsOf.2 ?_⟩
      rw [getAt_eq hload hregion] at hget
      cases hread : l.reads (c.harness.store.directory now) shard.cells m.key with
      | error e => simp [hread, Except.map] at hget
      | ok found =>
          simp only [hread, Except.map, Except.ok.injEq, Option.map_eq_some_iff] at hget
          obtain ⟨row, rfl, hvalue⟩ := hget
          have hrow := eq_of_reads hread
          rw [hvalue, ← hkind] at hrow
          rw [hrow]

end Reading

section Writing

variable {txn : View} {name : String}

theorem write_eq (hnamed : c.named? name = some shard) (txn : View) (batch : List Mutation) :
    c.write name txn batch =
      (.ok (shard.region.applyBatch c.harness.directory txn shard.cells batch).1,
        (c.setCells name (shard.region.applyBatch c.harness.directory txn shard.cells batch).2.2).request
          (shard.region.applyBatch c.harness.directory txn shard.cells batch).2.1) := by
  rw [write, hnamed]

/-- **A row that is written where it is located** has its new version in the region that it is read from. -/
theorem WellSplit.write_located (h : c.WellSplit) (txn : View) (m : Mutation) :
    ∃ shard status, c.regionOf? m.key = some shard ∧
      (c.write shard.region.name txn [m]).1 = .ok [status] ∧
      ∃ next, (c.write shard.region.name txn [m]).2.regionOf? m.key = some next ∧
        next.region = shard.region ∧
        next.cells.versions m.key =
          if status.isSuccess then (Region.cellOf txn m).replace (shard.cells.versions m.key)
          else shard.cells.versions m.key := by
  obtain ⟨shard, hregion⟩ := h.covers m.key
  have hnamed := h.named?_eq (of_regionOf? hregion).1
  obtain ⟨hstatuses, hcells⟩ := shard.region.applyBatch_eq c.harness.directory txn shard.cells [m]
  have hwrite := write_eq hnamed txn [m]
  rw [hstatuses, hcells] at hwrite
  refine ⟨shard, shard.region.answer c.harness.directory txn shard.cells m, hregion, ?_, ?_⟩
  · rw [hwrite]
    rfl
  · rw [hwrite]
    refine ⟨_, (regionOf?_setCells ..).trans (congrArg (Option.map _) hregion), ?_⟩
    dsimp only
    rw [if_pos rfl]
    refine ⟨rfl, ?_⟩
    dsimp only
    rw [List.filter_singleton]
    cases (shard.region.answer c.harness.directory txn shard.cells m).isSuccess with
    | false => rfl
    | true => exact (CellStore.versions_put ..).trans (if_pos rfl)

/-- A batch that is sent to a region leaves a row alone: no region gets a version of it, and no mutation of
it succeeds. -/
structure LeavesAlone (c : Cluster) (name : String) (txn : View) (batch : List Mutation) (key : Bytes) :
    Prop where
  cells : (c.write name txn batch).2.shards.map (·.cells.versions key) =
    c.shards.map (·.cells.versions key)
  failed : ∀ (i : Nat) (m : Mutation), batch[i]? = some m → m.key = key →
    ∀ statuses, (c.write name txn batch).1 = .ok statuses →
      ∀ status, statuses[i]? = some status → status.isSuccess = false

/-- **A batch changes no row outside its region.** -/
theorem Housed.leavesAlone (h : Housed splits c) (hsplits : splits.Pairwise (compare · · = .lt))
    (hkey : (c.locate key).1 ≠ .ok name) (txn : View) (batch : List Mutation) :
    c.LeavesAlone name txn batch key := by
  cases hnamed : c.named? name with
  | none =>
      have hwrite : c.write name txn batch = (.error (.transport name "no such region"), c) := by
        rw [Cluster.write, hnamed]
      refine ⟨by rw [hwrite], fun i m _ _ statuses hstatuses => ?_⟩
      rw [hwrite] at hstatuses
      cases hstatuses
  | some shard =>
      obtain ⟨hshard, rfl⟩ := of_named? hnamed
      have houtside : shard.region.contains key = false := by
        by_contra hcontains
        refine hkey ?_
        rw [locate, h.regionOf?_of_contains hsplits hshard (by simpa using hcontains)]
      have hwrite := write_eq hnamed txn batch
      refine ⟨?_, fun i m hm hmkey statuses hstatuses status hstatus => ?_⟩
      · obtain ⟨rows, hcells, hrows⟩ :=
          shard.region.exists_putAll_of_applyBatch c.harness.directory txn shard.cells batch
        have hother : ∀ m ∈ rows, m.key ≠ key := by
          rintro m hm rfl
          exact Bool.false_ne_true (houtside.symm.trans (hrows m hm))
        rw [hwrite]
        show (c.setCells shard.region.name _).shards.map _ = _
        rw [Cluster.setCells, List.map_map]
        refine List.map_congr_left fun s hs => ?_
        rw [Function.comp_apply]
        split
        · rename_i hname
          obtain rfl := List.inj_on_of_nodup_map h.wellSplit.names hs hshard hname
          rw [hcells, Region.versions_putAll hother]
        · rfl
      · rw [hwrite] at hstatuses
        cases hstatuses
        exact Region.not_isSuccess_of_outside hm (hmkey ▸ houtside) hstatus

end Writing

/-- **Writing, point reads and scans agree on where a row is.**  Whatever split points a cluster was made
with, and whatever was done with it since, every key lies in a region, which is found under the name that is
located for the key; and a row that is written there is the row that is read.

If the split points ascend, no other region holds the key, and none that a mutation is sent to instead writes
it.  If moreover there is no resolver and the sweeper ignores everything, a scan by a reader for whom every
writer can be resolved lists, in ascending key order and each once, the keys for which a point read returns a
value, with this value. -/
theorem routing_agrees (harness : Harness) (splits : List Bytes) (cs : List ClusterCall) :
    let c := (ofSplits harness splits).calls cs
    (∀ key, ∃ shard ∈ c.shards, shard.region.contains key = true ∧ c.regionOf? key = some shard ∧
      (c.locate key).1 = .ok shard.region.name ∧ c.named? shard.region.name = some shard) ∧
    (∀ (txn : View) (m : Mutation), ∃ shard status, c.regionOf? m.key = some shard ∧
      let written := c.write shard.region.name txn [m]
      written.1 = .ok [status] ∧
      ∃ next, written.2.regionOf? m.key = some next ∧ next.region = shard.region ∧
        next.cells.versions m.key =
          (if status.isSuccess then (Region.cellOf txn m).replace (shard.cells.versions m.key)
          else shard.cells.versions m.key) ∧
        ∀ reader, (written.2.get reader m.key).1 =
          (Read.get written.2.harness.directory reader next.cells m.key).1.map
            (Option.map Mutation.value)) ∧
    (splits.Pairwise (compare · · = .lt) →
      (∀ key, ∃! shard, shard ∈ c.shards ∧ shard.region.contains key = true) ∧
      (∀ key name, (c.locate key).1 ≠ .ok name → ∀ txn batch, c.LeavesAlone name txn batch key) ∧
      (c.resolver = none → c.sweeper = .ignoring →
        (∀ reader, c.scan reader = (c.scanAt 0 reader, c)) ∧
        (∀ reader key, c.get reader key = (c.getAt 0 reader key, c)) ∧
        ∀ (now : Millis) (reader : View) (l : Lineage),
          Lineage.load (c.harness.store.directory now) reader = .ok l →
          (∀ shard ∈ c.shards, ∀ key,
            l.Resolves (c.harness.store.directory now) (shard.cells.versions key)) →
          ∃ rows, c.scanAt now reader = .ok rows ∧
            (rows.Pairwise fun m next => compare m.key next.key = .lt) ∧
            ∀ m, m ∈ rows ↔ m.kind = .upsert ∧ c.getAt now reader m.key = .ok (some m.value))) := by
  intro c
  have h : Housed splits c := (Housed.ofSplits harness splits).calls cs
  refine ⟨fun key => ?_, fun txn m => ?_, fun hsplits => ⟨fun key => ?_,
    fun key name hkey txn batch => h.leavesAlone hsplits hkey txn batch,
    fun hresolver hsweeper => ?_⟩⟩
  · obtain ⟨shard, hregion⟩ := h.wellSplit.covers key
    obtain ⟨hshard, hcontains⟩ := of_regionOf? hregion
    refine ⟨shard, hshard, hcontains, hregion, ?_, h.wellSplit.named?_eq hshard⟩
    rw [locate, hregion]
  · obtain ⟨shard, status, hregion, hstatus, next, hnext, hsame, hversions⟩ := h.wellSplit.write_located txn m
    refine ⟨shard, status, hregion, hstatus, next, hnext, hsame, hversions, fun reader => ?_⟩
    rw [get, hnext]
  · obtain ⟨shard, hregion⟩ := h.wellSplit.covers key
    obtain ⟨hshard, hcontains⟩ := of_regionOf? hregion
    exact ⟨shard, ⟨hshard, hcontains⟩, fun other hother =>
      h.eq_of_contains hsplits hother.1 hshard hother.2 hcontains⟩
  · have hpost := post_eq h.wellSplit hresolver hsweeper
    exact ⟨scan_eq_scanAt h.wellSplit hpost, get_eq_getAt hpost,
      fun now reader l hload hresolves => h.scanAt_iff_getAt hsplits hload hresolves⟩

end Cluster

namespace SplitRows

def writer : View := { id := ⟨1⟩, begin := ⟨1⟩ }

def reader : View := { id := ⟨2⟩, begin := ⟨5⟩ }

def upsert (key value : UInt8) : Mutation := { kind := .upsert, key := [key], value := [value] }

/-- The transactions before and after the writer has committed. -/
def begun : Harness := (Harness.onFile.record writer).2

def committed : Harness := ((begun.submit (.commit ⟨1⟩ ⟨3⟩)).2.record reader).2

/-- A row is written in each of two regions, and one is sent to the wrong region. -/
def history : List ClusterCall :=
  [.write "region-1" writer [upsert 0x72 2], .write "region-0" writer [upsert 0x61 1, upsert 0x78 3],
    .surround committed none .ignoring]

def cluster : Cluster := (Cluster.ofSplits begun [[0x6d]]).calls history

def rows : List Mutation := [upsert 0x61 1, upsert 0x72 2]

theorem scanned : (cluster.scan reader).1 = .ok rows := by decide +kernel

theorem loaded : Lineage.load cluster.harness.directory reader = .ok (.ofRoot reader) := by decide +kernel

theorem resolves : ∀ shard ∈ cluster.shards, ∀ key,
    (Lineage.ofRoot reader).Resolves cluster.harness.directory (shard.cells.versions key) := by
  intro shard hshard key c hc
  have hall : ∀ shard ∈ cluster.shards, ∀ row ∈ shard.cells.rows.toList, ∀ c ∈ row.2,
      ((Lineage.ofRoot reader).fateOf cluster.harness.directory c).toOption.isSome = true := by
    decide +kernel
  have hrow : ∃ row ∈ shard.cells.rows.toList, c ∈ row.2 := by
    cases hstored : shard.cells.rows[key]? with
    | none => simp [CellStore.versions, hstored] at hc
    | some cells =>
        rw [CellStore.versions, hstored] at hc
        exact ⟨(key, cells), Std.ExtTreeMap.mem_toList_iff_getElem?_eq_some.2 hstored, hc⟩
  obtain ⟨row, hrow, hc⟩ := hrow
  cases hfate : (Lineage.ofRoot reader).fateOf cluster.harness.directory c with
  | error e => simpa [hfate, Except.toOption] using hall shard hshard row hrow c hc
  | ok fate => exact ⟨fate, rfl⟩

end SplitRows

open SplitRows in
/-- The rows of two regions, as a scan and as point reads find them. -/
theorem routing_agrees_splitRows :
    cluster.resolver = none ∧ cluster.sweeper = .ignoring ∧ (cluster.scan reader).1 = .ok rows ∧
      ∀ m, m ∈ rows ↔ m.kind = .upsert ∧ (cluster.get reader m.key).1 = .ok (some m.value) := by
  have hresolver : cluster.resolver = none := Option.isNone_iff_eq_none.1 (by decide +kernel)
  have hsweeper : cluster.sweeper = .ignoring := by decide +kernel
  obtain ⟨-, -, hascending⟩ := Cluster.routing_agrees begun [[0x6d]] history
  obtain ⟨-, -, hreads⟩ := hascending (List.pairwise_singleton _ _)
  rw [show (Cluster.ofSplits begun [[0x6d]]).calls history = cluster from rfl] at hreads
  obtain ⟨hscan, hget, hagree⟩ := hreads hresolver hsweeper
  obtain ⟨found, hfound, -, hmem⟩ := hagree 0 reader _ loaded resolves
  have hanswer : (cluster.scan reader).1 = .ok found := (congrArg Prod.fst (hscan reader)).trans hfound
  obtain rfl : found = rows := Except.ok.inj (hanswer.symm.trans scanned)
  refine ⟨hresolver, hsweeper, hanswer, fun m => ?_⟩
  rw [hmem m, hget]

end Multiversion
