import Std.Data.String.ToNat
import Multiversion.Proofs.Pipeline.Flushes
import Multiversion.Proofs.Pipeline.RowOutcomes
import Multiversion.Simulation.Cluster

/-!
# Clusters treat rows one by one

The regions of a cluster share out the key space, and each applies a batch row by row.  So a cluster
without a resolver is a transport whose answer to a row does not depend on the rows that the transaction
has sent before.

* `Cluster.WellSplit` — the names of the regions differ, and every key lies in some region;
  `Cluster.wellSplit_of_regions` — so it is for any split points;
* `Cluster.home`, `Cluster.outcome`, `Cluster.after` — where a row goes, its status, and the cluster once
  rows have been sent;
* `Cluster.applyInTurn` — mutations applied one at a time.

Main statements: `Cluster.rowByRow` — the cluster as a transport that treats rows one by one;
`Cluster.applyInTurn_after` — one at a time, mutations have the same statuses and leave the same cluster.
-/

namespace Multiversion

namespace Cluster

/-- The region that a key is found in is one of the cluster, and the key lies in it. -/
theorem of_regionOf? {c : Cluster} {key : Bytes} {shard : Shard} (h : c.regionOf? key = some shard) :
    shard ∈ c.shards ∧ shard.region.contains key = true :=
  ⟨List.mem_of_find?_eq_some h, by simpa using List.find?_some h⟩

/-- The region that is found under a name is one of the cluster, and has the name. -/
theorem of_named? {c : Cluster} {name : String} {shard : Shard} (h : c.named? name = some shard) :
    shard ∈ c.shards ∧ shard.region.name = name :=
  ⟨List.mem_of_find?_eq_some h, by simpa using List.find?_some h⟩

/-- A cluster whose regions have different names and share out the key space. -/
structure WellSplit (c : Cluster) : Prop where
  names : (c.shards.map (·.region.name)).Nodup
  covers : ∀ key, ∃ shard, c.regionOf? key = some shard

theorem regionName_injective : Function.Injective regionName := by
  intro i j h
  simp only [regionName, toString] at h
  exact Nat.repr_injective (by simpa using h)

theorem map_name_regions (splits : List Bytes) :
    (regions splits).map Region.name = (List.range (ranges [] splits).length).map regionName := by
  rw [regions, List.map_map, List.range_eq_range', ← List.zipIdx_map_snd 0 (ranges [] splits),
    List.map_map]
  rfl

/-- The ranges between split points cover the keys from the first one's start on, in whatever order the
points are. -/
theorem exists_range_contains {start key : Bytes} (hstart : (compare start key).isLE = true)
    (splits : List Bytes) : ∃ range ∈ ranges start splits, range.contains key = true := by
  induction splits generalizing start with
  | nil => exact ⟨_, List.mem_singleton.2 rfl, by simp [KeyRange.contains, hstart]⟩
  | cons split rest ih =>
      cases hstop : (compare key split).isLT with
      | true => exact ⟨_, List.mem_cons_self, by simp [KeyRange.contains, hstart, hstop]⟩
      | false =>
          have hsplit : (compare split key).isLE = true := by
            rw [← Std.OrientedCmp.isGE_iff_isLE]
            cases horder : compare key split <;> simp_all
          obtain ⟨range, hrange, hcontains⟩ := ih hsplit
          exact ⟨range, List.mem_cons_of_mem _ hrange, hcontains⟩

/-- Split points of any kind make a cluster that is well split. -/
theorem wellSplit_of_regions {c : Cluster} {splits : List Bytes}
    (h : c.shards.map Shard.region = regions splits) : c.WellSplit where
  names := by
    have hnames : c.shards.map (·.region.name) = (c.shards.map Shard.region).map Region.name := by
      rw [List.map_map]
      rfl
    rw [hnames, h, map_name_regions]
    exact List.nodup_range.map regionName_injective
  covers key := by
    have hstart : (compare [] key).isLE = true := by
      cases key with
      | nil => rfl
      | cons b rest => rfl
    obtain ⟨range, hrange, hcontains⟩ := exists_range_contains hstart splits
    rw [← List.zipIdx_map_fst 0 (ranges [] splits)] at hrange
    obtain ⟨numbered, hnumbered, rfl⟩ := List.mem_map.1 hrange
    have hregion : { name := regionName numbered.2, range := numbered.1 } ∈ regions splits :=
      List.mem_map.2 ⟨numbered, hnumbered, rfl⟩
    rw [← h] at hregion
    obtain ⟨shard, hshard, hsame⟩ := List.mem_map.1 hregion
    refine Option.isSome_iff_exists.1 (List.find?_isSome.2 ⟨shard, hshard, ?_⟩)
    rw [hsame]
    exact hcontains

/-- The name of the region that a key lies in. -/
def home (c : Cluster) (key : Bytes) : String := ((c.regionOf? key).map (·.region.name)).getD ""

/-- The status of a mutation in the region that its key lies in. -/
def outcome (c : Cluster) (txn : View) (m : Mutation) : Status :=
  match c.regionOf? m.key with
  | none => .notRun
  | some shard => shard.region.answer c.harness.directory txn shard.cells m

/-- The rows that succeed in the region of a name. -/
def landing (c : Cluster) (txn : View) (rows : List Mutation) (name : String) : List Mutation :=
  rows.filter fun m => c.home m.key = name && (c.outcome txn m).isSuccess

/-- A region of the cluster after rows have been sent. -/
def shardAfter (c : Cluster) (txn : View) (rows : List Mutation) (shard : Shard) : Shard :=
  { shard with cells := Region.putAll txn (c.landing txn rows shard.region.name) shard.cells }

/-- The cluster after rows have been sent. -/
def after (c : Cluster) (txn : View) (rows : List Mutation) : Cluster :=
  { c with shards := c.shards.map (c.shardAfter txn rows) }

variable {c : Cluster} {txn : View}

@[simp] theorem after_nil : c.after txn [] = c := by
  have hshards : c.shards.map (c.shardAfter txn []) = c.shards :=
    List.map_id'' (fun _ => rfl) _
  rw [after, hshards]

theorem after_congr {rows rows' : List Mutation}
    (h : ∀ name, c.landing txn rows name = c.landing txn rows' name) :
    c.after txn rows = c.after txn rows' := by
  have hshards : c.shardAfter txn rows = c.shardAfter txn rows' := by
    funext shard
    rw [shardAfter, h]
    rfl
  rw [after, hshards]
  rfl

theorem regionOf?_after (rows : List Mutation) (key : Bytes) :
    (c.after txn rows).regionOf? key = (c.regionOf? key).map (c.shardAfter txn rows) :=
  List.find?_map

theorem named?_after (rows : List Mutation) (name : String) :
    (c.after txn rows).named? name = (c.named? name).map (c.shardAfter txn rows) :=
  List.find?_map

theorem locate_after (h : c.WellSplit) (rows : List Mutation) (key : Bytes) :
    (c.after txn rows).locate key = (.ok (c.home key), c.after txn rows) := by
  obtain ⟨shard, hshard⟩ := h.covers key
  simp [locate, regionOf?_after, home, hshard, shardAfter]

/-- A region is found under its name. -/
theorem WellSplit.named?_eq (h : c.WellSplit) {shard : Shard} (hshard : shard ∈ c.shards) :
    c.named? shard.region.name = some shard := by
  have hsome : (c.named? shard.region.name).isSome = true :=
    List.find?_isSome.2 ⟨shard, hshard, decide_eq_true rfl⟩
  obtain ⟨found, hfound⟩ := Option.isSome_iff_exists.1 hsome
  obtain ⟨hmem, hname⟩ := of_named? hfound
  have hsame := List.inj_on_of_nodup_map h.names hmem hshard hname
  rw [← hsame] at hfound ⊢
  exact hfound

/-- Two keys with one home lie in one region. -/
theorem WellSplit.regionOf?_eq (h : c.WellSplit) {key key' : Bytes} {shard : Shard}
    (hshard : c.regionOf? key = some shard) (hhome : c.home key' = c.home key) :
    c.regionOf? key' = some shard := by
  obtain ⟨shard', hshard'⟩ := h.covers key'
  have hname : shard'.region.name = shard.region.name := by simpa [home, hshard, hshard'] using hhome
  have hsame := List.inj_on_of_nodup_map h.names (of_regionOf? hshard').1 (of_regionOf? hshard).1 hname
  rw [hshard', hsame]

theorem landing_append (rows rows' : List Mutation) (name : String) :
    c.landing txn (rows ++ rows') name = c.landing txn rows name ++ c.landing txn rows' name :=
  List.filter_append _ _

/-- Rows of one region change its cells only. -/
theorem setCells_after (h : c.WellSplit) (sent : List Mutation) {rows : List Mutation} {key : Bytes}
    {shard : Shard} (hshard : c.regionOf? key = some shard)
    (hrows : ∀ m ∈ rows, c.home m.key = shard.region.name) :
    (c.after txn sent).setCells shard.region.name (c.shardAfter txn (sent ++ rows) shard).cells =
      c.after txn (sent ++ rows) := by
  have hshards : ∀ s ∈ c.shards,
      (if s.region.name = shard.region.name then
          { c.shardAfter txn sent s with cells := (c.shardAfter txn (sent ++ rows) shard).cells }
        else c.shardAfter txn sent s) = c.shardAfter txn (sent ++ rows) s := by
    intro s hs
    split
    · -- Names differ, so this is the region that the rows were sent to.
      rename_i hname
      rw [List.inj_on_of_nodup_map h.names hs (of_regionOf? hshard).1 hname]
      rfl
    · rename_i hother
      have hnone : c.landing txn rows s.region.name = [] := by
        refine List.filter_eq_nil_iff.2 fun m hm => ?_
        simp [hrows m hm, Ne.symm hother]
      rw [shardAfter, shardAfter, landing_append, hnone, List.append_nil]
  simp only [setCells, after, List.map_map]
  congr 1
  exact List.map_congr_left hshards

/-- **A batch on one region** gives each row its own outcome, and leaves the cells of the region as after
its rows. -/
theorem applyBatch_after (h : c.WellSplit) (txn : View) (sent rows : List Mutation) (key : Bytes)
    (hrows : ∀ m ∈ rows, c.home m.key = c.home key) :
    ∃ shard, (c.after txn sent).named? (c.home key) = some shard ∧
      shard.region.name = c.home key ∧
      (shard.region.applyBatch c.harness.directory txn shard.cells rows).1 =
        rows.map (c.outcome txn) ∧
      (c.after txn sent).setCells (c.home key)
        (shard.region.applyBatch c.harness.directory txn shard.cells rows).2.2 =
        c.after txn (sent ++ rows) := by
  obtain ⟨shard, hshard⟩ := h.covers key
  have hhome : c.home key = shard.region.name := by simp [home, hshard]
  have hregion : ∀ m ∈ rows, c.regionOf? m.key = some shard :=
    fun m hm => h.regionOf?_eq hshard (hrows m hm)
  have houtcome : ∀ m ∈ rows, shard.region.answer c.harness.directory txn
      (c.shardAfter txn sent shard).cells m = c.outcome txn m := by
    intro m hm
    rw [shardAfter, Region.answer_putAll, outcome, hregion m hm]
  have hlanding : (rows.filter fun m => (shard.region.answer c.harness.directory txn
      (c.shardAfter txn sent shard).cells m).isSuccess) = c.landing txn rows shard.region.name := by
    refine List.filter_congr fun m hm => ?_
    rw [houtcome m hm]
    simp [hrows m hm, hhome]
  obtain ⟨hstatuses, hcells⟩ := Region.applyBatch_eq shard.region c.harness.directory txn
    (c.shardAfter txn sent shard).cells rows
  refine ⟨c.shardAfter txn sent shard, ?_, hhome.symm, ?_, ?_⟩
  · rw [named?_after, hhome, h.named?_eq (of_regionOf? hshard).1]
    rfl
  · exact hstatuses.trans (List.map_congr_left houtcome)
  · have hafter : Region.putAll txn (c.landing txn rows shard.region.name)
        (c.shardAfter txn sent shard).cells = (c.shardAfter txn (sent ++ rows) shard).cells := by
      simp only [shardAfter]
      rw [landing_append, Region.putAll_append]
    rw [hlanding, hafter] at hcells
    rw [hhome, ← setCells_after h sent hshard fun m hm => (hrows m hm).trans hhome, ← hcells]
    rfl

theorem write_after (h : c.WellSplit) (hresolver : c.resolver = none) (sent rows : List Mutation)
    (key : Bytes) (hrows : ∀ m ∈ rows, c.home m.key = c.home key) :
    (c.after txn sent).write (c.home key) txn rows =
      (.ok (rows.map (c.outcome txn)), c.after txn (sent ++ rows)) := by
  obtain ⟨shard, hnamed, -, hstatuses, hafter⟩ := applyBatch_after h txn sent rows key hrows
  rw [write, hnamed, ← hstatuses, ← hafter]
  simp [request, setCells, after, hresolver]

/-- A cluster without a resolver, as a transport that treats the rows of a transaction one by one. -/
def rowByRow (c : Cluster) (txn : View) (h : c.WellSplit) (hresolver : c.resolver = none) :
    transport.RowByRow txn where
  home := c.home
  outcome := c.outcome txn
  after := c.after txn
  locate := locate_after h
  write := write_after h hresolver
  after_congr := after_congr

/-- Applies one mutation as a batch of its own, on the region that is named for its key. -/
def applyAlone (txn : View) (m : Mutation) (c : Cluster) : List Status × Cluster :=
  match (c.locate m.key).1.toOption.bind c.named? with
  | none => ([], c)
  | some shard =>
      let (statuses, _, cells) := shard.region.applyBatch c.harness.directory txn shard.cells [m]
      (statuses, c.setCells shard.region.name cells)

/-- Applies mutations one at a time: what each of them answers, and the cluster afterwards. -/
def applyInTurn (txn : View) : List Mutation → Cluster → List (List Status) × Cluster
  | [], c => ([], c)
  | m :: rest, c =>
      let (statuses, c) := c.applyAlone txn m
      let (others, c) := applyInTurn txn rest c
      (statuses :: others, c)

theorem applyAlone_after (h : c.WellSplit) (sent : List Mutation) (m : Mutation) :
    (c.after txn sent).applyAlone txn m = ([c.outcome txn m], c.after txn (sent ++ [m])) := by
  obtain ⟨shard, hnamed, hname, hstatuses, hafter⟩ :=
    applyBatch_after h txn sent [m] m.key fun m' hm' => by rw [List.mem_singleton.1 hm']
  rw [applyAlone, locate_after h]
  simp only [Except.toOption, Option.bind_some, hnamed]
  rw [hname]
  exact Prod.ext hstatuses hafter

/-- **One at a time**, mutations get their own outcomes and leave the cluster as after all of them. -/
theorem applyInTurn_after (h : c.WellSplit) (sent rows : List Mutation) :
    (c.after txn sent).applyInTurn txn rows =
      (rows.map fun m => [c.outcome txn m], c.after txn (sent ++ rows)) := by
  induction rows generalizing sent with
  | nil => simp [applyInTurn]
  | cons m rest ih =>
      simp only [applyInTurn, applyAlone_after h, ih, List.append_assoc, List.singleton_append,
        List.map_cons]

end Cluster

end Multiversion
