import Mathlib.Data.List.Nodup
import Multiversion.Pipeline.Transport

/-!
# Flushes over rows that stand alone

A flush regroups its rows by partition, and sends again those that may be tried again.  Over partitions
that treat every row on its own, none of this shows: each row ends with the status of its first attempt,
and the world is the one after all rows in the order in which they were submitted.

* `Transport.RowByRow` — partitions whose answer to a row does not depend on what was sent before;
* `Flush.regrouped` — rows in the order in which one round sends them;
* `Flush.round_rowByRow` — one round; `Flush.rounds_rowByRow` — all rounds, by induction on the budget.

Main statement: `Flush.run_rowByRow` — what a flush does, whatever its budget of retries.
-/

namespace Multiversion

variable {τ : Type}

/-- A transport that finds each row the same home and gives it the same status, whatever rows of the
transaction came before.  `after` is the world once some rows have been sent. -/
structure Transport.RowByRow (t : Transport τ) (txn : View) where
  home : Bytes → String
  outcome : Mutation → Status
  after : List Mutation → τ
  locate : ∀ (sent : List Mutation) (key : Bytes),
    t.locate key (after sent) = (.ok (home key), after sent)
  -- A batch of rows that are all at home in one partition.
  write : ∀ (sent rows : List Mutation) (key : Bytes), (∀ m ∈ rows, home m.key = home key) →
    t.write (home key) txn rows (after sent) = (.ok (rows.map outcome), after (sent ++ rows))
  -- The world depends on the rows that succeed, taken in order for each partition by itself.
  after_congr : ∀ {rows rows' : List Mutation},
    (∀ name, (rows.filter fun m => home m.key = name && (outcome m).isSuccess) =
      rows'.filter fun m => home m.key = name && (outcome m).isSuccess) →
    after rows = after rows'

theorem nodup_eraseDups {κ : Type} [DecidableEq κ] (keys : List κ) : keys.eraseDups.Nodup := by
  cases keys with
  | nil => exact .nil
  | cons key rest =>
      rw [List.eraseDups_cons]
      exact List.nodup_cons.2 ⟨by simp, nodup_eraseDups _⟩
termination_by keys.length
decreasing_by
  have hle := List.length_filter_le (fun other => !other == key) rest
  simp only [List.length_cons]
  omega

/-- Grouping by a key leaves what has one key in its order. -/
theorem filter_flatMap_groups {α κ : Type} [DecidableEq κ] (keyOf : α → κ) (items : List α)
    {keys : List κ} (hkeys : keys.Nodup) (key : κ) :
    ((keys.flatMap fun k => items.filter fun a => keyOf a = k).filter fun a => keyOf a = key) =
      if key ∈ keys then items.filter fun a => keyOf a = key else [] := by
  have hgroup : ∀ k, (items.filter fun a => keyOf a = k).filter (fun a => keyOf a = key) =
      if k = key then items.filter fun a => keyOf a = key else [] := by
    intro k
    rw [List.filter_filter]
    split
    · rename_i hsame
      simp [hsame]
    · rename_i hother
      refine List.filter_eq_nil_iff.2 fun a _ hboth => ?_
      simp only [Bool.and_eq_true, decide_eq_true_eq] at hboth
      exact hother (hboth.2.symm.trans hboth.1)
  rw [List.filter_flatMap]
  simp only [hgroup]
  induction keys with
  | nil => rfl
  | cons k rest ih =>
      obtain ⟨hk, hrest⟩ := List.nodup_cons.1 hkeys
      rw [List.flatMap_cons, ih hrest]
      by_cases hsame : k = key
      · subst hsame
        simp [hk]
      · simp [hsame, Ne.symm hsame]

namespace Flush

/-- The row of an index. -/
def rowAt (rows : List Mutation) (index : Nat) : Mutation := rows[index]?.getD default

theorem getElem?_eq_rowAt {rows : List Mutation} {index : Nat} (h : index < rows.length) :
    rows[index]? = some (rowAt rows index) := by
  simp [rowAt, h]

theorem filterMap_getElem? {rows : List Mutation} {indexes : List Nat}
    (h : ∀ i ∈ indexes, i < rows.length) :
    (indexes.filterMap fun i => rows[i]?) = indexes.map (rowAt rows) := by
  rw [← List.filterMap_eq_map]
  exact List.filterMap_congr fun i hi => getElem?_eq_rowAt (h i hi)

theorem map_rowAt_range (rows : List Mutation) :
    (List.range rows.length).map (rowAt rows) = rows := by
  refine List.ext_getElem (by simp) fun i hi hi' => ?_
  simp [rowAt, hi']

variable {t : Transport τ} {txn : View} (s : t.RowByRow txn) (rows : List Mutation)

/-- Pending rows with their homes. -/
def atHome (pending : List Nat) : List (Nat × Except PipelineError String) :=
  pending.map fun i => (i, .ok (s.home (rowAt rows i).key))

/-- Pending rows of one home. -/
def ofHome (pending : List Nat) (name : String) : List Nat :=
  pending.filter fun i => s.home (rowAt rows i).key = name

/-- Pending rows in the order in which a round sends them: home by home. -/
def regrouped (pending : List Nat) : List Nat :=
  (partitions (atHome s rows pending)).flatMap (ofHome s rows pending)

variable {s rows} {pending : List Nat}

theorem mem_partitions_atHome {name : String} :
    name ∈ partitions (atHome s rows pending) ↔
      ∃ i ∈ pending, s.home (rowAt rows i).key = name := by
  simp [partitions, atHome, Except.toOption]

theorem nodup_partitions (located : List (Nat × Except PipelineError String)) :
    (partitions located).Nodup :=
  (List.mergeSort_perm _ _).nodup_iff.2 (nodup_eraseDups _)

theorem batchFor_atHome (pending : List Nat) (name : String) :
    batchFor (atHome s rows pending) name = ⟨name, ofHome s rows pending name⟩ := by
  have hguard : ((fun row : Nat × Except PipelineError String =>
      if row.2.toOption = some name then some row.1 else none) ∘
        fun i => (i, .ok (s.home (rowAt rows i).key))) =
      Option.guard fun i => s.home (rowAt rows i).key = name := by
    funext i
    simp [Option.guard, Except.toOption]
  rw [batchFor, atHome, List.filterMap_map, hguard, List.filterMap_eq_filter]
  rfl

theorem unlocated_atHome (pending : List Nat) : unlocated (atHome s rows pending) = [] := by
  simp [unlocated, atHome]

theorem mem_regrouped {i : Nat} : i ∈ regrouped s rows pending ↔ i ∈ pending := by
  simp only [regrouped, List.mem_flatMap, mem_partitions_atHome, ofHome, List.mem_filter,
    decide_eq_true_eq]
  constructor
  · rintro ⟨_, _, hi, _⟩
    exact hi
  · intro hi
    exact ⟨_, ⟨i, hi, rfl⟩, hi, rfl⟩

/-- Regrouping leaves the rows of one home in their order. -/
theorem ofHome_regrouped (name : String) :
    ofHome s rows (regrouped s rows pending) name = ofHome s rows pending name := by
  have hgroups := filter_flatMap_groups (fun i => s.home (rowAt rows i).key) pending
    (nodup_partitions (atHome s rows pending)) name
  refine hgroups.trans ?_
  split
  · rfl
  · rename_i hnone
    refine (List.filter_eq_nil_iff.2 fun i hi hname => hnone ?_).symm
    exact mem_partitions_atHome.2 ⟨i, hi, by simpa using hname⟩

theorem locateAll_rowByRow (hvalid : ∀ i ∈ pending, i < rows.length) (sent : List Mutation) :
    locateAll t rows pending (s.after sent) = (atHome s rows pending, s.after sent) := by
  induction pending with
  | nil => rfl
  | cons i rest ih =>
      have hrow := getElem?_eq_rowAt (hvalid i List.mem_cons_self)
      rw [locateAll, hrow]
      simp only [Option.map_some, Option.getD_some, s.locate,
        ih fun j hj => hvalid j (List.mem_cons_of_mem _ hj)]
      rfl

/-- The statuses that pending rows get when they are sent. -/
theorem zip_answerStatuses (name : String) (indexes : List Nat) :
    indexes.zip (answerStatuses name (indexes.map (rowAt rows)).length
      (.ok ((indexes.map (rowAt rows)).map s.outcome))) =
      indexes.map fun i => (i, s.outcome (rowAt rows i)) := by
  rw [answerStatuses, if_pos (by simp), List.map_map, List.zip_map_right, List.zip_eq_zipWith]
  simp [List.map_map]

/-- Batches sent one after the other: every row gets its own status, and the rows are sent in the order
of the batches. -/
theorem sendAll_rowByRow (hvalid : ∀ i ∈ pending, i < rows.length) (names : List String)
    (hnames : ∀ name ∈ names, ∃ key, s.home key = name) (stats : WriterStats)
    (sent : List Mutation) :
    let sending := sendAll t txn rows (names.map (batchFor (atHome s rows pending))) stats
      (s.after sent)
    let order := names.flatMap (ofHome s rows pending)
    sending.1 = order.map (fun i => (i, s.outcome (rowAt rows i))) ∧
      sending.2.2 = s.after (sent ++ order.map (rowAt rows)) := by
  induction names generalizing stats sent with
  | nil => exact ⟨rfl, by simp [sendAll]⟩
  | cons name rest ih =>
      obtain ⟨key, rfl⟩ := hnames name List.mem_cons_self
      have hbatch : ((ofHome s rows pending (s.home key)).filterMap fun i => rows[i]?) =
          (ofHome s rows pending (s.home key)).map (rowAt rows) :=
        filterMap_getElem? fun i hi => hvalid i (List.mem_of_mem_filter hi)
      have hwrite := s.write sent ((ofHome s rows pending (s.home key)).map (rowAt rows)) key
        fun m hm => by
          obtain ⟨i, hi, rfl⟩ := List.mem_map.1 hm
          simpa using (List.mem_filter.1 hi).2
      obtain ⟨hstatuses, hworld⟩ := ih (fun name hname => hnames name (List.mem_cons_of_mem _ hname))
        (stats.countBatch ((ofHome s rows pending (s.home key)).map (rowAt rows)).length)
        (sent ++ (ofHome s rows pending (s.home key)).map (rowAt rows))
      simp only [List.map_cons, batchFor_atHome, sendAll, hbatch, hwrite, zip_answerStatuses,
        List.flatMap_cons, List.map_append]
      rw [← List.append_assoc, ← hworld, ← hstatuses]
      exact ⟨rfl, rfl⟩

/-- Statuses recorded for rows: the last status of a row is the one that its home gives it. -/
theorem getElem?_record (order : List Nat) (statuses : List Status) (i : Nat) :
    ((order.map fun i => (i, s.outcome (rowAt rows i))).foldl
      (fun statuses o => statuses.set o.1 o.2) statuses)[i]? =
      if i ∈ order then statuses[i]?.map fun _ => s.outcome (rowAt rows i) else statuses[i]? := by
  induction order generalizing statuses with
  | nil => simp
  | cons j rest ih =>
      rw [List.map_cons, List.foldl_cons, ih]
      by_cases hsame : i = j
      · subst hsame
        by_cases hlength : i < statuses.length
        · simp [hlength]
        · simp [hlength]
      · simp [hsame, Ne.symm hsame]

/-- **One round** gives every pending row the status that its home gives it, and sends the pending rows
home by home. -/
theorem round_rowByRow (hvalid : ∀ i ∈ pending, i < rows.length) {f : FlushState τ}
    {sent : List Mutation} (hworld : f.world = s.after sent) :
    let order := regrouped s rows pending
    (round t txn rows pending f).1 = order.map (fun i => (i, s.outcome (rowAt rows i))) ∧
      (round t txn rows pending f).2.world = s.after (sent ++ order.map (rowAt rows)) ∧
      ∀ i, (round t txn rows pending f).2.statuses[i]? =
        if i ∈ pending then f.statuses[i]?.map fun _ => s.outcome (rowAt rows i)
        else f.statuses[i]? := by
  obtain ⟨hstatuses, hafter⟩ := sendAll_rowByRow (s := s) hvalid
    (partitions (atHome s rows pending))
    (fun name hname => by
      obtain ⟨i, -, hi⟩ := mem_partitions_atHome.1 hname
      exact ⟨_, hi⟩) f.stats sent
  simp only [round, hworld, locateAll_rowByRow hvalid, unlocated_atHome, List.nil_append]
  refine ⟨hstatuses, hafter, fun i => ?_⟩
  rw [batches, hstatuses, getElem?_record]
  exact if_congr mem_regrouped rfl rfl

/-- The rows to try again are pending rows that did not succeed. -/
theorem of_mem_retries {i : Nat}
    (h : i ∈ retries ((regrouped s rows pending).map fun i => (i, s.outcome (rowAt rows i)))) :
    i ∈ pending ∧ (s.outcome (rowAt rows i)).isSuccess = false := by
  simp only [retries, List.mem_mergeSort, List.mem_map, List.mem_filter] at h
  obtain ⟨_, ⟨⟨j, hj, rfl⟩, hretryable⟩, rfl⟩ := h
  refine ⟨mem_regrouped.1 hj, ?_⟩
  cases houtcome : s.outcome (rowAt rows j) with
  | success => simp [houtcome, Status.isRetryable, Status.errorClass] at hretryable
  | _ => rfl

/-- Of the rows of some indexes, those that succeed at one home. -/
theorem filter_map_rowAt (indexes : List Nat) (name : String) :
    ((indexes.map (rowAt rows)).filter fun m => s.home m.key = name && (s.outcome m).isSuccess) =
      ((ofHome s rows indexes name).filter fun i => (s.outcome (rowAt rows i)).isSuccess).map
        (rowAt rows) := by
  rw [List.filter_map, ofHome, List.filter_filter]
  refine congrArg _ (List.filter_congr fun i _ => ?_)
  exact Bool.and_comm _ _

/-- Sending pending rows home by home, and then rows that do not succeed, is sending the pending rows in
order. -/
theorem after_regrouped (sent : List Mutation) {again : List Nat}
    (hagain : ∀ i ∈ again, (s.outcome (rowAt rows i)).isSuccess = false) :
    s.after (sent ++ (regrouped s rows pending).map (rowAt rows) ++ again.map (rowAt rows)) =
      s.after (sent ++ pending.map (rowAt rows)) := by
  refine s.after_congr fun name => ?_
  -- Rows that do not succeed leave no trace at their home.
  have hlost : ((ofHome s rows again name).filter fun i =>
      (s.outcome (rowAt rows i)).isSuccess) = [] := by
    refine List.filter_eq_nil_iff.2 fun i hi => ?_
    simp [hagain i (List.mem_of_mem_filter hi)]
  simp only [List.filter_append, filter_map_rowAt, ofHome_regrouped, hlost, List.map_nil,
    List.append_nil]

theorem after_regrouped_all (sent : List Mutation) :
    s.after (sent ++ (regrouped s rows pending).map (rowAt rows)) =
      s.after (sent ++ pending.map (rowAt rows)) := by
  have hnone : s.after (sent ++ (regrouped s rows pending).map (rowAt rows) ++
      ([] : List Nat).map (rowAt rows)) = s.after (sent ++ pending.map (rowAt rows)) :=
    after_regrouped sent (by simp)
  rwa [List.map_nil, List.append_nil] at hnone

/-- The last round: the budget is used up, or there is nothing to try again. -/
theorem rounds_of_last {budget : Nat} {f : FlushState τ}
    (h : budget = 0 ∨ retries (round t txn rows pending f).1 = []) :
    rounds t txn rows budget pending f = (round t txn rows pending f).2 := by
  rw [rounds.eq_def]
  rcases h with rfl | hnone
  · dsimp only
    split <;> first | rfl | contradiction
  · simp only [hnone]

/-- A round with another one to follow. -/
theorem rounds_of_retries {budget : Nat} {f : FlushState τ}
    (h : retries (round t txn rows pending f).1 ≠ []) :
    rounds t txn rows (budget + 1) pending f =
      rounds t txn rows budget (retries (round t txn rows pending f).1)
        { (round t txn rows pending f).2 with
          stats := (round t txn rows pending f).2.stats.countRetries
            (retries (round t txn rows pending f).1).length } := by
  rw [rounds.eq_def]
  cases hagain : retries (round t txn rows pending f).1 with
  | nil => exact absurd hagain h
  | cons first others => simp only [hagain]

/-- **All rounds** of a flush: further rounds change nothing, since the rows that they try again do not
succeed and get the same statuses. -/
theorem rounds_rowByRow (budget : Nat) (hvalid : ∀ i ∈ pending, i < rows.length) {f : FlushState τ}
    {sent : List Mutation} (hworld : f.world = s.after sent) :
    (rounds t txn rows budget pending f).world = s.after (sent ++ pending.map (rowAt rows)) ∧
      ∀ i, (rounds t txn rows budget pending f).statuses[i]? =
        if i ∈ pending then f.statuses[i]?.map fun _ => s.outcome (rowAt rows i)
        else f.statuses[i]? := by
  induction budget generalizing pending f sent with
  | zero =>
      obtain ⟨-, hafter, hstatuses⟩ := round_rowByRow (s := s) hvalid hworld
      rw [rounds_of_last (.inl rfl)]
      exact ⟨hafter.trans (after_regrouped_all sent), hstatuses⟩
  | succ budget ih =>
      obtain ⟨houtcomes, hafter, hstatuses⟩ := round_rowByRow (s := s) hvalid hworld
      by_cases hnone : retries (round t txn rows pending f).1 = []
      · rw [rounds_of_last (.inr hnone)]
        exact ⟨hafter.trans (after_regrouped_all sent), hstatuses⟩
      · have hretries : ∀ i ∈ retries (round t txn rows pending f).1,
            i ∈ pending ∧ (s.outcome (rowAt rows i)).isSuccess = false := by
          rw [houtcomes]
          exact fun i => of_mem_retries
        rw [rounds_of_retries hnone]
        obtain ⟨hafter', hstatuses'⟩ := ih (fun i hi => hvalid i (hretries i hi).1)
          (f := { (round t txn rows pending f).2 with
            stats := (round t txn rows pending f).2.stats.countRetries
              (retries (round t txn rows pending f).1).length }) hafter
        refine ⟨hafter'.trans (after_regrouped sent fun i hi => (hretries i hi).2), fun i => ?_⟩
        rw [hstatuses' i, hstatuses i]
        -- A row that is tried again got the same status before.
        by_cases hpending : i ∈ pending
        · simp [hpending, Function.comp_def]
        · rw [if_neg fun hi => hpending (hretries i hi).1]

/-- **A flush does what its rows do one by one.**  Whatever the budget of retries, every row gets the
status that its home gives it, and the world is the one after all rows, in order of submission. -/
theorem run_rowByRow (s : t.RowByRow txn) (maxRetries : Nat) (rows : List Mutation)
    (stats : WriterStats) (sent : List Mutation) :
    let flushed := run t maxRetries txn rows stats (s.after sent)
    flushed.statuses = rows.map s.outcome ∧ flushed.world = s.after (sent ++ rows) := by
  let start : FlushState τ :=
    { statuses := rows.map fun _ => .notRun, stats := stats.countFlush, world := s.after sent }
  have hvalid : ∀ i ∈ List.range rows.length, i < rows.length := fun i => List.mem_range.1
  have hstart : start.world = s.after sent := rfl
  obtain ⟨hworld, hstatuses⟩ := rounds_rowByRow maxRetries hvalid hstart
  rw [map_rowAt_range] at hworld
  refine ⟨List.ext_getElem? fun i => ?_, hworld⟩
  refine (hstatuses i).trans ?_
  by_cases hi : i < rows.length
  · simp [start, hi, rowAt]
  · simp [start, hi]

end Flush

end Multiversion
