import Multiversion.Proofs.Isolation.Cells

/-!
# What a snapshot reader sees

For an active top-level reader under snapshot isolation, whether it sees a version is decided by the
records alone: the writer's lineage commits up into the reader, or its root committed in time.

* `seenFrom` — this condition, along the path of a transaction;
* `Snapshot` — the readers it is about;
* `Lineage.seesWriter` — the answer that the walk gives for a writer;
* `Lineage.visibleValues` — the values of the visible versions of a row.

Main statements: `Snapshot.seesWriter_eq` and `Snapshot.sees_eq` say that walk, cache and condition
agree; by `Snapshot.get_eq` and `Snapshot.scan_congr` both reads are determined by the visible values.
-/

namespace Multiversion

/-- Whether a reader sees work of a transaction with the given ancestors. -/
def seenFrom (reader : View) : View → List View → Bool
  | v, [] => v.id = reader.id || (v.phase = .committed && v.commit.any (· ≤ reader.begin))
  | v, u :: us => v.id = reader.id || (v.phase = .committed && seenFrom reader u us)

theorem seenFrom_self {reader v : View} (h : v.id = reader.id) (us : List View) :
    seenFrom reader v us = true := by
  cases us <;> simp [seenFrom, h]

/-- Nobody else sees work in progress, or work that was rolled back. -/
theorem seenFrom_of_not_committed {reader v : View} (h : v.id ≠ reader.id)
    (hphase : v.phase ≠ .committed) (us : List View) : seenFrom reader v us = false := by
  cases us <;> simp [seenFrom, h, hphase]

/-- An active top-level reader under snapshot isolation. -/
structure Snapshot (d : Directory) (reader : View) : Prop where
  root : reader.parent = none
  isolation : reader.isolation = .snapshotIsolation
  -- It is still active.
  active : ∃ v, d.find? reader.id = some v ∧ reader.Evolves v ∧ v.phase = .active

namespace Lineage

/-- Whether the reader sees work of a writer. -/
def seesWriter (l : Lineage) (d : Directory) (writer : TxnId) : Bool :=
  match l.resolveWriter d writer with
  | .ok fate => fate.isVisibleTo l.view
  | .error _ => false

/-- The values of the visible versions of a row, newest first. -/
def visibleValues (l : Lineage) (d : Directory) (versions : List Cell) : List (Option Bytes) :=
  (versions.filter fun c => Selection.everything.covers c && l.seesWriter d c.writer).map Cell.value

/-- What a read returns for the versions that it has fetched of a row. -/
def rowValue (l : Lineage) (d : Directory) (key : Bytes) (found : List Cell) : Option Mutation :=
  Read.pairOf key (found.filter (l.sees d)).head?

end Lineage

namespace Snapshot

variable {d : Directory} {reader : View}

/-- Where the whole lineage has committed outside the reader, the root decides. -/
theorem seenFrom_of_rootCommit {v : View} {us : List View} {c : Timestamp}
    (hroot : rootCommit v us = some c) (houtside : ∀ u ∈ v :: us, u.id ≠ reader.id) :
    seenFrom reader v us = decide (c ≤ reader.begin) := by
  induction us generalizing v with
  | nil =>
      simp only [rootCommit, Option.ite_none_right_eq_some] at hroot
      have hv := houtside v List.mem_cons_self
      simp [seenFrom, hv, hroot]
  | cons u us ih =>
      simp only [rootCommit, Option.ite_none_right_eq_some] at hroot
      have hv := houtside v List.mem_cons_self
      have hrest := ih hroot.2 fun w hw => houtside w (List.mem_cons_of_mem _ hw)
      simp [seenFrom, hv, hroot.1, hrest]

theorem ne_of_rootCommit (hr : Snapshot d reader) {v : View} {us : List View} {c : Timestamp}
    (hd : d.Sound) (hv : d.find? v.id = some v) (hpath : Path d v us)
    (hroot : rootCommit v us = some c) : ∀ u ∈ v :: us, u.id ≠ reader.id := by
  intro u hu hid
  obtain ⟨w, hw, -, hactive⟩ := hr.active
  obtain ⟨hcommitted, hancestors⟩ := committed_of_rootCommit hroot
  have hfind : d.find? u.id = some u ∧ u.phase = .committed := by
    rcases List.mem_cons.1 hu with rfl | hu
    · exact ⟨hv, hcommitted⟩
    · exact ⟨(hpath.ascends hd hv u hu).2, hancestors u hu⟩
  rw [hid, hw] at hfind
  cases hfind.1
  simp [hactive] at hfind

/-- **The walk sees what the condition says.** -/
theorem walk_spec (hd : d.Sound) (hr : Snapshot d reader) (writer : TxnId) {v : View} {us : List View}
    (hpath : Path d v us) (hv : d.find? v.id = some v) {room : Nat} (hroom : us.length ≤ room)
    {below : Option Timestamp} (hbelow : below = none → v.id ≠ reader.id) :
    ∃ f, (Lineage.ofRoot reader).walk d writer room below v = .ok f ∧
      f.isVisibleTo reader = seenFrom reader v us := by
  -- Unless the walk stops at the reader, the element that it looks at is not the reader.
  have houtside : ∀ {v : View} {below : Option Timestamp}, (below = none → v.id ≠ reader.id) →
      (below.filter fun _ => (Lineage.ofRoot reader).contains v.id) = none → v.id ≠ reader.id := by
    intro v below hbelow hgo
    cases below with
    | none => exact hbelow rfl
    | some c =>
        intro hid
        simp [Lineage.contains_ofRoot.2 hid] at hgo
  -- One case for each way in which the walk ends: at the reader, at a transaction that has rolled back
  -- or is active, at a cached timestamp, for want of one, at the root, out of room or without a parent.
  -- In the last case it goes on.
  fun_induction Lineage.walk (Lineage.ofRoot reader) d writer room below v generalizing us with
  | case1 room below v commit hstop =>
      have hid := Lineage.contains_ofRoot.1 (Option.filter_eq_some_iff.1 hstop).2
      exact ⟨_, rfl, by simp [Fate.isVisibleTo, seenFrom_self hid us, hid]⟩
  | case2 room below v hgo hphase =>
      have hid := houtside hbelow hgo
      exact ⟨_, rfl, (seenFrom_of_not_committed hid (by simp [hphase]) us).symm⟩
  | case3 room below v hgo hphase =>
      have hid := houtside hbelow hgo
      refine ⟨_, rfl, ?_⟩
      rw [seenFrom_of_not_committed hid (by simp [hphase]) us]
      simp [Fate.isVisibleTo, hr.isolation]
  | case4 room below v hgo hphase root hcached =>
      obtain ⟨us', hpath', hroot⟩ := hd.cached hv hcached
      rw [hpath'.unique hpath] at hroot
      refine ⟨_, rfl, ?_⟩
      rw [seenFrom_of_rootCommit hroot (hr.ne_of_rootCommit hd hv hpath hroot)]
      simp [Fate.isVisibleTo, hr.isolation]
  | case5 room below v hgo hphase hcommit =>
      obtain ⟨c, hc⟩ := hd.stamped hv hphase
      simp [hcommit] at hc
  | case6 room below v hgo hphase commit hparent hcommit hnone =>
      have hid := houtside hbelow hgo
      cases hpath with
      | child hsome => simp [hparent] at hsome
      | root => exact ⟨_, rfl, by simp [Fate.isVisibleTo, seenFrom, hid, hphase, hcommit, hr.isolation]⟩
  | case7 below v hgo hphase commit parent hparent hcommit hnone =>
      cases hpath with
      | root hroot => simp [hparent] at hroot
      | child => simp at hroom
  | case8 below v hgo hphase commit parent hparent hcommit hnone room e hget =>
      cases hpath with
      | root hroot => simp [hparent] at hroot
      | child hsome hfind =>
          cases hparent.symm.trans hsome
          simp [Directory.get, hfind] at hget
  | case9 below v hgo hphase commit parent hparent hcommit hnone room u hget ih =>
      have hid := houtside hbelow hgo
      cases hpath with
      | root hroot => simp [hparent] at hroot
      | @child _ w us _ hsome hfind hrest =>
          cases hparent.symm.trans hsome
          cases (Directory.get_eq_ok_iff.1 hget).symm.trans hfind
          have hkeyed : u.id = parent := hd.keyed hfind
          obtain ⟨f, hwalk, hvisible⟩ := ih hrest (hkeyed ▸ hfind) (by simpa using hroom) (by simp)
          exact ⟨f, hwalk, by simp [seenFrom, hid, hphase, hvisible]⟩

theorem seesWriter_eq (hd : d.Sound) (hr : Snapshot d reader) {writer : TxnId} {v : View}
    {us : List View} (hfind : d.find? writer = some v) (hpath : Path d v us)
    (hlength : us.length ≤ maxAncestors) :
    (∃ f, (Lineage.ofRoot reader).resolveWriter d writer = .ok f) ∧
      (Lineage.ofRoot reader).seesWriter d writer = seenFrom reader v us := by
  have hkeyed : v.id = writer := hd.keyed hfind
  subst hkeyed
  unfold Lineage.seesWriter Lineage.resolveWriter
  by_cases hid : v.id = reader.id
  · rw [if_pos (Lineage.contains_ofRoot.2 hid)]
    exact ⟨⟨_, rfl⟩, (seenFrom_self hid us).symm⟩
  · have houtside : (none : Option Timestamp) = none → v.id ≠ reader.id := fun _ => hid
    obtain ⟨f, hwalk, hvisible⟩ := walk_spec hd hr v.id hpath hfind hlength houtside
    rw [if_neg fun hown => hid (Lineage.contains_ofRoot.1 hown), Directory.get_eq_ok_iff.2 hfind]
    simp only [hwalk]
    exact ⟨⟨f, rfl⟩, hvisible⟩

/-- **The cached timestamp changes nothing**: the reader sees a recorded version if it sees the writer. -/
theorem sees_eq (hd : d.Sound) (hr : Snapshot d reader) {c : Cell} (hc : c.Recorded d) :
    (∃ f, (Lineage.ofRoot reader).fateOf d c = .ok f) ∧
      (Lineage.ofRoot reader).sees d c = (Lineage.ofRoot reader).seesWriter d c.writer := by
  obtain ⟨v, us, hfind, hpath, hlength, -, hcached⟩ := hc
  obtain ⟨⟨f, hresolve⟩, hsees⟩ := hr.seesWriter_eq hd hfind hpath hlength
  unfold Lineage.sees Lineage.fateOf
  by_cases hown : (Lineage.ofRoot reader).contains c.writer = true
  · rw [if_pos hown]
    exact ⟨⟨f, hresolve⟩, rfl⟩
  · rw [if_neg hown]
    cases hcommit : c.commit with
    | none => exact ⟨⟨f, hresolve⟩, rfl⟩
    | some ts =>
        refine ⟨⟨_, rfl⟩, ?_⟩
        have hkeyed : v.id = c.writer := hd.keyed hfind
        have hroot := hcached ts hcommit
        rw [hsees, seenFrom_of_rootCommit hroot
          (hr.ne_of_rootCommit hd (hkeyed ▸ hfind) hpath hroot)]
        show (Fate.committed ts false).isVisibleTo reader = _
        simp [Fate.isVisibleTo, hr.isolation]

/-- The versions that a read fetches can all be resolved. -/
theorem resolves (hd : d.Sound) (hr : Snapshot d reader) {cells : CellStore}
    (hcells : cells.Recorded d) (key : Bytes) :
    (Lineage.ofRoot reader).Resolves d (cells.get key .everything) := by
  intro c hc
  rw [CellStore.get_everything] at hc
  exact (hr.sees_eq hd (hcells key c (List.mem_of_mem_filter hc))).1

theorem rowValue_eq (hd : d.Sound) (hr : Snapshot d reader) {cells : CellStore}
    (hcells : cells.Recorded d) (key : Bytes) :
    (Lineage.ofRoot reader).rowValue d key (cells.get key .everything) =
      ((Lineage.ofRoot reader).visibleValues d (cells.versions key)).head?.join.map
        fun value => { kind := .upsert, key, value } := by
  have hfilter : (cells.get key .everything).filter ((Lineage.ofRoot reader).sees d) =
      (cells.versions key).filter fun c => Selection.everything.covers c &&
        (Lineage.ofRoot reader).seesWriter d c.writer := by
    rw [CellStore.get_everything, List.filter_filter]
    refine List.filter_congr fun c hc => ?_
    rw [(hr.sees_eq hd (hcells key c hc)).2, Bool.and_comm]
  rw [Lineage.rowValue, hfilter, Lineage.visibleValues, List.head?_map, Read.pairOf]
  cases ((cells.versions key).filter fun c => Selection.everything.covers c &&
    (Lineage.ofRoot reader).seesWriter d c.writer).head? <;> rfl

/-- **What a point read answers**: the newest visible value. -/
theorem get_eq (hd : d.Sound) (hr : Snapshot d reader) {cells : CellStore}
    (hcells : cells.Recorded d) (key : Bytes) :
    (Read.get d reader cells key).1 =
      .ok (((Lineage.ofRoot reader).visibleValues d (cells.versions key)).head?.join.map
        fun value => { kind := .upsert, key, value }) := by
  rw [Read.get_of_resolvable (Lineage.load_root hr.root) (hr.resolves hd hcells key)]
  exact congrArg Except.ok (hr.rowValue_eq hd hcells key)

/-- A scan over a range out of order fails, once a version was ever written. -/
theorem scan_unordered (hr : Snapshot d reader) {cells : CellStore} {range : KeyRange}
    (hwritten : cells.everWritten = true) (hrange : range.isOrdered = false) :
    (Read.scan d reader cells range).1 = .error .unorderedRange := by
  have hview : Visibility.load d reader = .ok { lineage := Lineage.ofRoot reader } := by
    simp [Visibility.load, Lineage.load_root hr.root, Lineage.ofRoot]
  simp [Read.scan, hview, CellStore.scan?, hwritten, hrange]

theorem scan_ordered (hd : d.Sound) (hr : Snapshot d reader) {cells : CellStore}
    (hcells : cells.Recorded d) {range : KeyRange} (hrange : range.isOrdered = true) :
    (Read.scan d reader cells range).1 =
      .ok ((cells.scan range .everything).filterMap fun row =>
        (Lineage.ofRoot reader).rowValue d row.1 row.2) := by
  have hfound := cells.scan?_of_isOrdered hrange .everything
  refine Read.scan_of_resolvable (Lineage.load_root hr.root) hfound fun row hrow => ?_
  rw [CellStore.get_of_mem_scan hrow]
  exact hr.resolves hd hcells row.1

/-- **Scans are determined by the visible values** of each row. -/
theorem scan_congr {d' : Directory} (hd : d.Sound) (hd' : d'.Sound) (hr : Snapshot d reader)
    (hr' : Snapshot d' reader) {cells cells' : CellStore} (hcells : cells.Recorded d)
    (hcells' : cells'.Recorded d')
    (hvalues : ∀ key, (Lineage.ofRoot reader).visibleValues d (cells.versions key) =
      (Lineage.ofRoot reader).visibleValues d' (cells'.versions key))
    {range : KeyRange}
    (hrange : range.isOrdered = true ∨ cells.everWritten = true ∧ cells'.everWritten = true) :
    (Read.scan d reader cells range).1 = (Read.scan d' reader cells' range).1 := by
  cases hordered : range.isOrdered with
  | false =>
      have hwritten := hrange.resolve_left (by simp [hordered])
      rw [hr.scan_unordered hwritten.1 hordered, hr'.scan_unordered hwritten.2 hordered]
  | true =>
      rw [hr.scan_ordered hd hcells hordered, hr'.scan_ordered hd' hcells' hordered]
      have hkey : ∀ {d : Directory} {key : Bytes} {found : List Cell} {m : Mutation},
          (Lineage.ofRoot reader).rowValue d key found = some m → m.key = key := by
        intro d key found m hm
        obtain ⟨value, -, rfl⟩ := Option.map_eq_some_iff.1 hm
        rfl
      refine congrArg Except.ok (CellStore.filterMap_scan_congr range .everything
        (fun _ => rfl) (fun _ => rfl) hkey hkey fun key => ?_)
      rw [hr.rowValue_eq hd hcells key, hr'.rowValue_eq hd' hcells' key, hvalues key]

end Snapshot

end Multiversion
