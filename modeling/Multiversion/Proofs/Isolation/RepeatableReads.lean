import Multiversion.Proofs.Isolation.Sight

/-!
# Repeatable reads

A top-level reader under snapshot isolation reads the same before and after any steps that others take,
as long as it stays active itself and

* commits come after its begin and from outside its own family;
* nobody commits below a lineage that had already committed, in full, by the reader's begin.

The second condition is not idle: a child that is committed late inherits the root's commit timestamp,
and with it shows up in snapshots that are already open.

The proof follows the values that the reader sees of one row (`Lineage.visibleValues`) through every
elementary change: records (`visibleValues_submit`), writes (`visibleValues_applied`) and clean-up
(`visibleValues_swept`).
-/

namespace Multiversion

/-- A change of the transaction table that stays out of a reader's sight. -/
def Change.Beside (d : Directory) (reader : View) : Change → Prop
  | .commit id ts =>
      reader.begin < ts ∧ ¬ Ascends d id reader.id ∧
        ∀ {v u : View} {us : List View} {c : Timestamp}, d.find? id = some v → Path d v (u :: us) →
          rootCommit u us = some c → reader.begin < c
  | _ => True

/-- A late commit of another top-level transaction stays out of a reader's sight. -/
theorem Change.beside_of_root {d : Directory} {reader v : View} {id : TxnId} {ts : Timestamp}
    (hlate : reader.begin < ts) (hv : d.find? id = some v) (hroot : v.parent = none)
    (hne : reader.id ≠ id) : (Change.commit id ts).Beside d reader := by
  refine ⟨hlate, fun hascends => hne (hascends.eq_of_root hv hroot), fun hv' hpath _ => ?_⟩
  cases hv.symm.trans hv'
  cases hpath with
  | child hparent => simp [hroot] at hparent

/-- A step that stays out of a reader's sight. -/
def Step.Beside (reader : View) (e : Engine) : Step → Prop
  | .commit id ts => (Change.commit id ts).Beside e.directory reader
  | .applyBatch _ _ txn _ => txn.id ≠ reader.id
  | _ => True

theorem Step.beside_of_change {step : Step} {change : Change} {e : Engine} {reader : View}
    (h : step.change? = some change) (hbeside : step.Beside reader e) :
    change.Beside e.directory reader := by
  cases step <;> cases h
  · exact trivial
  · exact hbeside
  · exact trivial
  · exact trivial

/-- From one table to a later one, no record changes in a way that shows to the reader. -/
def Unseen (d d' : Directory) (reader : View) : Prop :=
  ∀ {id : TxnId} {v v' : View}, d.find? id = some v → d'.find? id = some v' →
    v'.phase = v.phase ∧ v'.commit = v.commit ∨
      v.phase = .active ∧ (id ≠ reader.id → ∀ us, Path d' v' us → seenFrom reader v' us = false)

namespace Snapshot

variable {d d' : Directory} {reader : View}

/-- A snapshot that is still open later was open in between. -/
theorem between {d'' : Directory} (hr : Snapshot d reader) (hr' : Snapshot d'' reader)
    (hlater : d.Later d') (hlater' : d'.Later d'') : Snapshot d' reader where
  root := hr.root
  isolation := hr.isolation
  active := by
    obtain ⟨v, hv, hevolves, -⟩ := hr.active
    obtain ⟨v', hv', hevolves'⟩ := hlater _ v hv
    obtain ⟨v'', hv'', hevolves''⟩ := hlater' _ v' hv'
    obtain ⟨w, hw, -, hactive⟩ := hr'.active
    cases hv''.symm.trans hw
    exact ⟨v', hv', hevolves.trans hevolves', hevolves''.active hactive⟩

/-- What is seen from outside the reader's family has committed up to a root, in time. -/
theorem rootCommit_of_seenFrom {v : View} {us : List View} (h : seenFrom reader v us = true)
    (houtside : ∀ u ∈ v :: us, u.id ≠ reader.id) :
    ∃ c, rootCommit v us = some c ∧ c ≤ reader.begin := by
  induction us generalizing v with
  | nil =>
      have hv := houtside v List.mem_cons_self
      simp only [seenFrom, hv, decide_false, Bool.false_or, Bool.and_eq_true, decide_eq_true_eq,
        Option.any_eq_true] at h
      obtain ⟨hphase, c, hcommit, hle⟩ := h
      exact ⟨c, by simp [rootCommit, hphase, hcommit], hle⟩
  | cons u us ih =>
      have hv := houtside v List.mem_cons_self
      simp only [seenFrom, hv, decide_false, Bool.false_or, Bool.and_eq_true, decide_eq_true_eq] at h
      obtain ⟨c, hroot, hle⟩ := ih h.2 fun w hw => houtside w (List.mem_cons_of_mem _ hw)
      exact ⟨c, by simp [rootCommit, h.1, hroot], hle⟩

/-- What is seen has committed all the way up to its root, or to the reader. -/
theorem committed_of_seenFrom (hd : d.Sound) (hr : Snapshot d reader) {v : View} {us : List View}
    (hpath : Path d v us) (hv : d.find? v.id = some v) (h : seenFrom reader v us = true) :
    ∀ u ∈ v :: us, u.phase = .committed ∨ u.id = reader.id := by
  induction hpath with
  | @root v hroot =>
      intro u hu
      rw [List.mem_singleton.1 hu]
      simp only [seenFrom, Bool.or_eq_true, Bool.and_eq_true, decide_eq_true_eq] at h
      rcases h with hid | ⟨hphase, -⟩
      · exact .inr hid
      · exact .inl hphase
  | @child v w us parent hparent hfind hpath ih =>
      have hkeyed : w.id = parent := hd.keyed hfind
      have hid : v.id ≠ reader.id := by
        intro hid
        obtain ⟨r, hfindr, hevolves, -⟩ := hr.active
        rw [hid, hfindr] at hv
        cases hv
        rw [hevolves.parent, hr.root] at hparent
        contradiction
      simp only [seenFrom, hid, decide_false, Bool.false_or, Bool.and_eq_true, decide_eq_true_eq] at h
      intro u hu
      rcases List.mem_cons.1 hu with rfl | hu
      · exact .inl h.1
      · exact ih (hkeyed ▸ hfind) h.2 u hu

theorem seenFrom_of_doomed (hd : d.Sound) (hr : Snapshot d reader) {v : View} {us : List View}
    (hpath : Path d v us) (hv : d.find? v.id = some v) (hdoomed : Doomed d v.id) :
    seenFrom reader v us = false := by
  obtain ⟨a, w, hascends, hw, hphase⟩ := hdoomed
  have hnot : ∀ u ∈ v :: us, d.find? u.id = some u → u.id = a → seenFrom reader v us = false := by
    intro u hu hrecorded hid
    obtain rfl : w = u := Option.some.inj (hw.symm.trans (hid ▸ hrecorded))
    by_contra hseen
    rcases hr.committed_of_seenFrom hd hpath hv (by simpa using hseen) w hu with hcommitted | hid
    · simp [hphase] at hcommitted
    · obtain ⟨r, hr, -, hactive⟩ := hr.active
      rw [← hid, hrecorded] at hr
      cases hr
      simp [hphase] at hactive
  rcases hpath.mem_of_ascends hd hv hascends with rfl | ⟨u, hu, hid⟩
  · exact hnot v List.mem_cons_self hv rfl
  · exact hnot u (List.mem_cons_of_mem _ hu) (hpath.ascends hd hv u hu).2 hid

/-- Unseen changes do not change what is seen of a lineage. -/
theorem seenFrom_of_unseen (hd : d.Sound) (hlater : d.Later d') (hunseen : Unseen d d' reader)
    {v v' : View} {us us' : List View} (hpath : Path d v us) (hv : d.find? v.id = some v)
    (hv' : d'.find? v.id = some v') (hpath' : Path d' v' us') :
    seenFrom reader v' us' = seenFrom reader v us := by
  have hevolves : ∀ {v v' : View}, d.find? v.id = some v → d'.find? v.id = some v' →
      v.Evolves v' := by
    intro v v' hv hv'
    obtain ⟨w, hw, hevolves⟩ := hlater _ v hv
    cases hw.symm.trans hv'
    exact hevolves
  -- The paths in the two tables go through the same ids, since parents do not change.
  induction hpath generalizing v' us' with
  | @root v hroot =>
      have hv'v := hevolves hv hv'
      by_cases hid : v.id = reader.id
      · rw [seenFrom_self hid, seenFrom_self (hv'v.id.trans hid)]
      · rcases hunseen hv hv' with ⟨hphase, hcommit⟩ | ⟨hactive, hfalse⟩
        · cases hpath' with
          | root => simp [seenFrom, hv'v.id, hphase, hcommit]
          | child hparent => simp [hv'v.parent, hroot] at hparent
        · rw [hfalse hid us' hpath', seenFrom_of_not_committed hid (by simp [hactive])]
  | @child v u us parent hparent hfind hpath ih =>
      have hv'v := hevolves hv hv'
      by_cases hid : v.id = reader.id
      · rw [seenFrom_self hid, seenFrom_self (hv'v.id.trans hid)]
      · rcases hunseen hv hv' with ⟨hphase, hcommit⟩ | ⟨hactive, hfalse⟩
        · have hkeyed : u.id = parent := hd.keyed hfind
          cases hpath' with
          | root hroot => simp [hv'v.parent, hparent] at hroot
          | @child _ u' us' parent' hparent' hfind' hrest =>
              cases (hv'v.parent.symm.trans hparent').symm.trans hparent
              have htail := ih (hkeyed ▸ hfind) (hkeyed ▸ hfind') hrest
              simp [seenFrom, hv'v.id, hphase, htail]
        · rw [hfalse hid us' hpath', seenFrom_of_not_committed hid (by simp [hactive])]

/-- **A commit beside the reader is not seen.**  A lineage that has committed in full is seen by its
root; if the root is the transaction itself, it comes too late, and if not, it is no root that the
reader sees. -/
theorem seenFrom_of_commit (hd : d.Sound) (hd' : d'.Sound) {id : TxnId} {ts : Timestamp}
    {v v' : View} {us : List View} (hbeside : (Change.commit id ts).Beside d reader)
    (hv : d.find? id = some v) (hv' : d'.find? id = some v') (hparent : v'.parent = v.parent)
    (hcommit : v'.commit = some ts) (hsame : ∀ other, other ≠ id → d'.find? other = d.find? other)
    (hid : id ≠ reader.id) (hpath' : Path d' v' us) : seenFrom reader v' us = false := by
  obtain ⟨hlate, hforeign, hroots⟩ := hbeside
  have hkeyed : v.id = id := hd.keyed hv
  have hkeyed' : v'.id = id := hd'.keyed hv'
  cases hpath' with
  | root =>
      have hnot : ¬ ts ≤ reader.begin := fun hle => Timestamp.not_lt.2 hle hlate
      simp [seenFrom, hkeyed', hid, hcommit, hnot]
  | @child _ u us parent hsome hfind' hrest =>
      -- Above the transaction nothing has changed.
      have hagree : ∀ w ∈ u :: us, d.find? w.id = some w := by
        intro w hw
        have hpath : Path d' v' (u :: us) := .child hsome hfind' hrest
        have hrecorded : d'.find? v'.id = some v' := hkeyed' ▸ hv'
        have hne := hpath.ne_of_mem hd' hrecorded hw
        rw [← hsame w.id (hkeyed' ▸ hne)]
        exact (hpath.ascends hd' hrecorded w hw).2
      have hu := hagree u List.mem_cons_self
      have hfind : d.find? parent = some u := by
        rwa [hd'.keyed hfind'] at hu
      have hpath : Path d v (u :: us) := .child (hparent ▸ hsome) hfind
        (hrest.of_agree hd' fun w hw => hagree w (List.mem_cons_of_mem _ hw))
      have houtside : ∀ w ∈ u :: us, w.id ≠ reader.id := by
        rintro w hw hreader
        refine hforeign ?_
        rw [← hreader, ← hkeyed]
        exact (hpath.ascends hd (hkeyed ▸ hv) w hw).1
      have hrest : seenFrom reader u us = false := by
        by_contra hseen
        obtain ⟨c, hroot, hle⟩ := rootCommit_of_seenFrom (by simpa using hseen) houtside
        exact Timestamp.not_lt.2 hle (hroots hv hpath hroot)
      simp [seenFrom, hkeyed', hid, hrest]

theorem unseen_of_find?_eq (h : ∀ id, d'.find? id = d.find? id) : Unseen d d' reader := by
  intro id v v' hv hv'
  rw [h, hv] at hv'
  cases hv'
  exact .inl ⟨rfl, rfl⟩

/-- A request beside the reader changes no record in a way that shows. -/
theorem unseen_submit {t : TxnStore} {now now' : Millis} {change : Change}
    (hd : (t.directory now).Sound) (hd' : ((t.submit now change).2.directory now').Sound)
    (hbeside : change.Beside (t.directory now) reader) :
    Unseen (t.directory now) ((t.submit now change).2.directory now') reader := by
  rcases t.directory_submit now now' change with hsame | ⟨old, e, haccepted, hold, hnew, hsame⟩
  · exact unseen_of_find?_eq hsame
  · intro id v v' hv hv'
    by_cases hid : id = change.txn
    · subst hid
      cases hnew.symm.trans hv'
      obtain ⟨entry, rfl, rfl⟩ := Option.map_eq_some_iff.1 (hold.symm.trans hv)
      cases haccepted with
      | commit hactive hbegin =>
          exact .inr ⟨hactive, fun hid us hpath =>
            seenFrom_of_commit hd hd' hbeside hv hv' rfl rfl hsame hid hpath⟩
      | rollback hactive =>
          refine .inr ⟨hactive, fun hid us _ => seenFrom_of_not_committed ?_ (by simp) us⟩
          rw [hd'.keyed hv']
          exact hid
      | globalCommit => exact .inl ⟨rfl, rfl⟩
      | keepAlive => exact .inl ⟨rfl, rfl⟩
    · rw [hsame id hid, hv] at hv'
      cases hv'
      exact .inl ⟨rfl, rfl⟩

/-- Unseen changes of records change no visible value. -/
theorem visibleValues_of_unseen (hd : d.Sound) (hd' : d'.Sound) (hr : Snapshot d reader)
    (hr' : Snapshot d' reader) (hlater : d.Later d') (hunseen : Unseen d d' reader)
    {versions : List Cell} (hversions : ∀ c ∈ versions, c.Recorded d) :
    (Lineage.ofRoot reader).visibleValues d' versions =
      (Lineage.ofRoot reader).visibleValues d versions := by
  unfold Lineage.visibleValues
  refine congrArg (List.map Cell.value) (List.filter_congr fun c hc => ?_)
  obtain ⟨v, us, hfind, hpath, hlength, -⟩ := hversions c hc
  obtain ⟨v', hfind', hevolves⟩ := hlater _ v hfind
  obtain ⟨us', hpath', hlength', -⟩ := hlater.path hpath hevolves
  have hkeyed : v.id = c.writer := hd.keyed hfind
  rw [(hr.seesWriter_eq hd hfind hpath hlength).2,
    (hr'.seesWriter_eq hd' hfind' hpath' (hlength' ▸ hlength)).2,
    seenFrom_of_unseen hd hlater hunseen hpath (hkeyed ▸ hfind) (hkeyed ▸ hfind') hpath']

/-- Nobody else sees the work of a transaction that is still active. -/
theorem seesWriter_of_active (hr : Snapshot d reader) {writer : TxnId} {v : View}
    (hfind : d.find? writer = some v) (hactive : v.phase = .active) (hid : writer ≠ reader.id) :
    (Lineage.ofRoot reader).seesWriter d writer = false := by
  have hown : ¬ (Lineage.ofRoot reader).contains writer = true :=
    fun hown => hid (Lineage.contains_ofRoot.1 hown)
  unfold Lineage.seesWriter Lineage.resolveWriter Lineage.walk
  rw [if_neg hown, Directory.get_eq_ok_iff.2 hfind]
  simp [hactive, Fate.isVisibleTo, Lineage.ofRoot, hr.isolation]

/-- A write that the reader does not see changes no visible value. -/
theorem visibleValues_put {cells : CellStore} {c : Cell}
    (hc : (Lineage.ofRoot reader).seesWriter d c.writer = false) (key other : Bytes) :
    (Lineage.ofRoot reader).visibleValues d ((cells.put key c).versions other) =
      (Lineage.ofRoot reader).visibleValues d (cells.versions other) := by
  rw [CellStore.versions_put]
  split
  · unfold Lineage.visibleValues Cell.replace
    rw [Cell.filter_place (by simp [hc]), List.filter_filter]
    refine congrArg (List.map Cell.value) (List.filter_congr fun x _ => ?_)
    by_cases hwriter : x.writer = c.writer
    · simp [hwriter, hc]
    · simp [hwriter]
  · rfl

theorem visibleValues_applied {txn : View} {l : Lineage} {cells cells' : CellStore}
    {batch : List Mutation} {statuses : List Status}
    (h : Region.Applied d txn l cells batch statuses cells')
    (htxn : (Lineage.ofRoot reader).seesWriter d txn.id = false) (key : Bytes) :
    (Lineage.ofRoot reader).visibleValues d (cells'.versions key) =
      (Lineage.ofRoot reader).visibleValues d (cells.versions key) := by
  induction h with
  | nil => rfl
  | skip _ _ ih => exact ih
  | put _ _ _ ih => exact ih.trans (visibleValues_put htxn _ key)

theorem visibleValues_markCommitted (writer : TxnId) (ts : Timestamp) (versions : List Cell) :
    (Lineage.ofRoot reader).visibleValues d (Cell.markCommitted writer ts versions) =
      (Lineage.ofRoot reader).visibleValues d versions := by
  have hstrip : ∀ versions : List Cell, (Lineage.ofRoot reader).visibleValues d versions =
      (Lineage.ofRoot reader).visibleValues d (versions.map fun c => { c with commit := none }) := by
    intro versions
    simp only [Lineage.visibleValues, List.filter_map, List.map_map]
    rfl
  rw [hstrip, Cell.map_markCommitted (fun _ _ => rfl), ← hstrip]

theorem visibleValues_applyTo (hd : d.Sound) (hr : Snapshot d reader) {cells : CellStore}
    (hcells : cells.Recorded d) {handOff : HandOff} (hjustified : handOff.Justified d) (key : Bytes) :
    (Lineage.ofRoot reader).visibleValues d ((handOff.applyTo cells).2.versions key) =
      (Lineage.ofRoot reader).visibleValues d (cells.versions key) := by
  cases handOff with
  | rolledBack row writer =>
      rw [HandOff.applyTo, CellStore.versions_removeVersion]
      split
      · unfold Lineage.visibleValues
        rw [List.filter_filter]
        refine congrArg (List.map Cell.value) (List.filter_congr fun c hc => ?_)
        by_cases hwriter : c.writer = writer
        · subst hwriter
          obtain ⟨v, us, hfind, hpath, hlength, -⟩ := hcells key c hc
          have hkeyed : v.id = c.writer := hd.keyed hfind
          rw [(hr.seesWriter_eq hd hfind hpath hlength).2,
            hr.seenFrom_of_doomed hd hpath (hkeyed ▸ hfind) (hkeyed ▸ hjustified)]
          simp
        · simp [hwriter]
      · rfl
  | committed row writer ts =>
      rw [HandOff.applyTo, CellStore.versions_setCommit]
      split
      · exact visibleValues_markCommitted writer ts _
      · rfl

theorem visibleValues_swept (hd : d.Sound) (hr : Snapshot d reader) {cells cells' : CellStore}
    (hcells : cells.Recorded d) (hswept : cells.Swept d cells') (key : Bytes) :
    (Lineage.ofRoot reader).visibleValues d (cells'.versions key) =
      (Lineage.ofRoot reader).visibleValues d (cells.versions key) := by
  induction hswept with
  | refl => rfl
  | apply hjustified _ ih =>
      exact (ih (hcells.applyTo hjustified)).trans (visibleValues_applyTo hd hr hcells hjustified key)

theorem visibleValues_submit {t : TxnStore} {now now' : Millis} {change : Change}
    (hd : (t.directory now).Sound) (hhonest : change.Honest (t.directory now))
    (hbeside : change.Beside (t.directory now) reader) (hr : Snapshot (t.directory now) reader)
    (hr' : Snapshot ((t.submit now change).2.directory now') reader) {versions : List Cell}
    (hversions : ∀ c ∈ versions, c.Recorded (t.directory now)) :
    (Lineage.ofRoot reader).visibleValues ((t.submit now change).2.directory now') versions =
      (Lineage.ofRoot reader).visibleValues (t.directory now) versions := by
  have hd' := TxnStore.sound_submit hd hhonest now'
  exact visibleValues_of_unseen hd hd' hr hr' (t.later_submit now now' change)
    (unseen_submit hd hd' hbeside) hversions

theorem visibleValues_resolved {t t' : TxnStore} {now : Millis} (h : t.Resolved now t')
    (hd : (t.directory now).Sound) (hr : Snapshot (t.directory now) reader)
    (hr' : Snapshot (t'.directory now) reader) {versions : List Cell}
    (hversions : ∀ c ∈ versions, c.Recorded (t.directory now)) :
    (Lineage.ofRoot reader).visibleValues (t'.directory now) versions =
      (Lineage.ofRoot reader).visibleValues (t.directory now) versions := by
  induction h with
  | refl => rfl
  | @submit t t' change htidying hrest ih =>
      have hlater := t.later_submit now now change
      have hbetween := hr.between hr' hlater hrest.later
      have hbeside : change.Beside (t.directory now) reader := by
        cases change with
        | commit => exact htidying.elim
        | begin => exact trivial
        | rollback => exact trivial
        | globalCommit => exact trivial
        | keepAlive => exact trivial
      have hd' := TxnStore.sound_submit hd htidying.honest now
      have hversions' : ∀ c ∈ versions, c.Recorded ((t.submit now change).2.directory now) :=
        fun c hc => (hversions c hc).later hlater
      exact (ih hd' hbetween hr' hversions').trans
        (visibleValues_submit hd htidying.honest hbeside hr hbetween hversions)

end Snapshot

theorem CellStore.Swept.everWritten {d : Directory} {cells cells' : CellStore}
    (h : cells.Swept d cells') : cells'.everWritten = cells.everWritten := by
  induction h with
  | refl => rfl
  | @apply cells cells' handOff _ _ ih =>
      rw [ih]
      cases handOff with
      | rolledBack => exact everWritten_setVersions _ _ _
      | committed => exact everWritten_setVersions _ _ _

theorem Region.Applied.everWritten {d : Directory} {txn : View} {l : Lineage}
    {cells cells' : CellStore} {batch : List Mutation} {statuses : List Status}
    (h : Applied d txn l cells batch statuses cells') (hwritten : cells.everWritten = true) :
    cells'.everWritten = true := by
  induction h with
  | nil => exact hwritten
  | skip _ _ ih => exact ih hwritten
  | put _ _ _ ih => exact ih rfl

namespace Engine

variable {e : Engine} {reader : View}

/-- **One step beside the reader changes no value that the reader sees.** -/
theorem visibleValues_step (he : e.Coherent) {step : Step} (hstep : step.Lawful e)
    (hbeside : step.Beside reader e) (hr : Snapshot e.directory reader)
    (hr' : Snapshot (e.step step).directory reader) (key : Bytes) :
    (Lineage.ofRoot reader).visibleValues (e.step step).directory ((e.step step).cells.versions key) =
      (Lineage.ofRoot reader).visibleValues e.directory (e.cells.versions key) := by
  obtain ⟨heffect, hsound⟩ := effect_step he.toSound hstep
  have hrecords := hsound.records
  unfold directory at hr' hrecords ⊢
  generalize (e.step step).now = now' at hr' hrecords ⊢
  generalize (e.step step).store = store' at heffect hr' hrecords ⊢
  generalize (e.step step).cells = cells' at heffect ⊢
  -- The reading of the clock does not matter to the reader.
  have htime : ∀ (t : TxnStore) (now now' : Millis) (cells : CellStore),
      (t.directory now).Sound → cells.Recorded (t.directory now) →
      Snapshot (t.directory now') reader →
      (Lineage.ofRoot reader).visibleValues (t.directory now') (cells.versions key) =
        (Lineage.ofRoot reader).visibleValues (t.directory now) (cells.versions key) := by
    intro t now now' cells hd hcells hr'
    have hlater := later_directory t now now'
    have hr : Snapshot (t.directory now) reader :=
      hr'.between hr' (later_directory t now' now) hlater
    refine Snapshot.visibleValues_of_unseen hd (sound_directory hd now') hr hr' hlater ?_
      (hcells key)
    exact Snapshot.unseen_of_find?_eq (t.directory_find?_congr now now')
  cases heffect with
  | @change step change hchange =>
      have hhonest := Step.honest_of_change hchange e.directory
      have hbeside' := Step.beside_of_change hchange hbeside
      exact Snapshot.visibleValues_submit he.records hhonest hbeside' hr hr' (he.cells key)
  | @batch r resolves txn batch =>
      rcases r.applyBatch_cases he.records txn e.cells batch with
        ⟨hsame, -⟩ | ⟨w, l, hfind, hactive, hload, happlied⟩
      · rw [hsame]
        exact htime _ _ _ _ he.records he.cells hr'
      · have hcells := happlied.recorded (Region.recorded_cellOf hstep hload) he.cells
        rw [htime _ _ _ _ he.records hcells hr']
        exact Snapshot.visibleValues_applied happlied (hr.seesWriter_of_active hfind hactive hbeside) key
  | tidy _ hresolved hswept =>
      have hd := hresolved.sound he.records
      have hlater := hresolved.later
      have hcells : e.cells.Recorded (store'.directory e.now) :=
        fun key c hc => (he.cells key c hc).later hlater
      have hbetween := hr.between hr' hlater (later_directory _ _ _)
      rw [htime _ _ _ _ hd (hcells.swept hswept) hr',
        Snapshot.visibleValues_swept hd hbetween hcells hswept,
        Snapshot.visibleValues_resolved hresolved he.records hr hbetween (he.cells key)]

theorem everWritten_step (he : e.Coherent) {step : Step} (hstep : step.Lawful e)
    (hwritten : e.cells.everWritten = true) : (e.step step).cells.everWritten = true := by
  obtain ⟨heffect, -⟩ := effect_step he.toSound hstep
  generalize (e.step step).store = store' at heffect
  generalize (e.step step).cells = cells' at heffect ⊢
  cases heffect with
  | change => exact hwritten
  | @batch r resolves txn batch =>
      rcases r.applyBatch_cases he.records txn e.cells batch with ⟨hsame, -⟩ | ⟨w, l, -, -, -, happlied⟩
      · rwa [hsame]
      · exact happlied.everWritten hwritten
  | tidy _ _ hswept => rwa [hswept.everWritten]

theorem visibleValues_run (he : e.Coherent) {steps : List Step}
    (h : e.Admits (fun e step => step.Lawful e ∧ step.Beside reader e) steps)
    (hr : Snapshot e.directory reader) (hr' : Snapshot (e.run steps).directory reader) :
    (∀ key, (Lineage.ofRoot reader).visibleValues (e.run steps).directory
        ((e.run steps).cells.versions key) =
      (Lineage.ofRoot reader).visibleValues e.directory (e.cells.versions key)) ∧
    (e.cells.everWritten = true → (e.run steps).cells.everWritten = true) := by
  induction steps generalizing e with
  | nil => exact ⟨fun _ => rfl, id⟩
  | cons step rest ih =>
      obtain ⟨⟨hstep, hbeside⟩, hrest⟩ := h
      have he' := coherent_step he hstep
      have hlater := later_run he'.toSound (hrest.mono fun hadmitted => hadmitted.1)
      have hbetween := hr.between hr' (later_step he.toSound hstep) hlater
      obtain ⟨hvalues, hwritten⟩ := ih he' hrest hbetween hr'
      refine ⟨fun key => ?_, fun hold => hwritten (everWritten_step he hstep hold)⟩
      exact (hvalues key).trans (visibleValues_step he hstep hbeside hr hbetween key)

end Engine

namespace LateChild

/-- An engine with an empty store. -/
def engine : Engine := { store := .single (.empty {}) }

/-- A reader that begins after the commit of the root. -/
def reader : View := { id := ⟨3⟩, begin := ⟨3⟩ }

/-- A child of the root. -/
def child : View := { id := ⟨4⟩, begin := ⟨4⟩, parent := some ⟨1⟩ }

/-- The root commits, and the reader begins. -/
def before : List Step := [.begin { id := ⟨1⟩, begin := ⟨1⟩ }, .commit ⟨1⟩ ⟨2⟩, .begin reader]

/-- The child begins, writes a row and commits. -/
def after : List Step :=
  [.begin child,
    .applyBatch { name := "rows" } false child [{ kind := .upsert, key := [1], value := [1] }],
    .commit ⟨4⟩ ⟨5⟩]

theorem root_foreign {d : Directory} (h : (d.find? ⟨1⟩).map View.parent = some none) :
    ¬ Ascends d ⟨1⟩ reader.id := by
  obtain ⟨v, hv, hparent⟩ := Option.map_eq_some_iff.1 h
  intro hascends
  exact absurd (hascends.eq_of_root hv hparent) (by decide)

theorem child_foreign {d : Directory} (hroot : (d.find? ⟨1⟩).map View.parent = some none)
    (h : (d.find? ⟨4⟩).map View.parent = some (some ⟨1⟩)) : ¬ Ascends d ⟨4⟩ reader.id := by
  obtain ⟨v, hv, hparent⟩ := Option.map_eq_some_iff.1 h
  intro hascends
  exact root_foreign hroot (hascends.of_parent (by decide) hv hparent)

/-- An unrelated transaction begins, writes the row and commits. -/
def elsewhere : List Step :=
  [.begin { id := ⟨5⟩, begin := ⟨5⟩ },
    .applyBatch { name := "rows" } false { id := ⟨5⟩, begin := ⟨5⟩ }
      [{ kind := .upsert, key := [1], value := [1] }],
    .commit ⟨5⟩ ⟨6⟩]

end LateChild

/-- **Repeatable reads.**  From any state that lawful steps lead to, whatever steps are taken beside a
top-level reader under snapshot isolation that is still active in the end, its reads return what they
returned before.  A scan has to be over an ordered range, or to have failed on it before as well. -/
theorem repeatable_reads {e : Engine} (hfresh : e.IsFresh) {before after : List Step} {reader : View}
    (hbefore : e.Admits Step.Lawful before) (hroot : reader.parent = none)
    (hisolation : reader.isolation = .snapshotIsolation)
    (hrecorded : (e.run before).directory.find? reader.id = some reader)
    (hafter : (e.run before).Admits (fun e step => step.Lawful e ∧ step.Beside reader e) after)
    (hactive : ((e.run before).run after).directory.phase reader.id = .ok .active) :
    (∀ key, (((e.run before).run after).get reader key).1 = ((e.run before).get reader key).1) ∧
      ∀ range : KeyRange, range.isOrdered = true ∨ (e.run before).cells.everWritten = true →
        (((e.run before).run after).scan reader range).1 = ((e.run before).scan reader range).1 := by
  have he := Engine.coherent_run hfresh.coherent hbefore
  generalize e.run before = e at he hrecorded hafter hactive ⊢
  have hlawful : e.Admits Step.Lawful after := hafter.mono fun hadmitted => hadmitted.1
  have he' := Engine.coherent_run he hlawful
  obtain ⟨v, hv, hphase⟩ := Directory.phase_eq_ok_iff.1 hactive
  obtain ⟨v', hv', hevolves⟩ := Engine.later_run he.toSound hlawful _ _ hrecorded
  cases hv'.symm.trans hv
  have hr : Snapshot e.directory reader :=
    ⟨hroot, hisolation, reader, hrecorded, .refl reader, hevolves.active hphase⟩
  have hr' : Snapshot (e.run after).directory reader := ⟨hroot, hisolation, v, hv, hevolves, hphase⟩
  obtain ⟨hvalues, hwritten⟩ := Engine.visibleValues_run he hafter hr hr'
  refine ⟨fun key => ?_, fun range hrange => ?_⟩
  · show (Read.get _ reader _ key).1 = (Read.get _ reader _ key).1
    rw [hr'.get_eq he'.records he'.cells, hr.get_eq he.records he.cells, hvalues]
  · show (Read.scan _ reader _ range).1 = (Read.scan _ reader _ range).1
    refine Snapshot.scan_congr he'.records he.records hr' hr he'.cells he.cells hvalues ?_
    exact hrange.imp_right fun hold => ⟨hwritten hold, hold⟩

/-- A late commit elsewhere leaves the reads of the reader as they were. -/
theorem repeatable_reads_elsewhere :
    (∀ key, (((LateChild.engine.run LateChild.before).run LateChild.elsewhere).get
        LateChild.reader key).1 =
      ((LateChild.engine.run LateChild.before).get LateChild.reader key).1) ∧
      ∀ range : KeyRange, range.isOrdered = true ∨
          (LateChild.engine.run LateChild.before).cells.everWritten = true →
        (((LateChild.engine.run LateChild.before).run LateChild.elsewhere).scan
          LateChild.reader range).1 =
        ((LateChild.engine.run LateChild.before).scan LateChild.reader range).1 := by
  have hfresh : LateChild.engine.IsFresh := Engine.isFresh_of_empty {} {} true none
  have hbefore : LateChild.engine.Admits Step.Lawful LateChild.before :=
    ⟨trivial, trivial, trivial, trivial⟩
  have hafter : (LateChild.engine.run LateChild.before).Admits
      (fun e step => step.Lawful e ∧ step.Beside LateChild.reader e) LateChild.elsewhere := by
    have hcommit : ∀ d : Directory, d.find? ⟨5⟩ = some { id := ⟨5⟩, begin := ⟨5⟩ } →
        (Change.commit ⟨5⟩ ⟨6⟩).Beside d LateChild.reader :=
      fun d hfind => Change.beside_of_root (by decide) hfind rfl (by decide)
    refine ⟨⟨trivial, trivial⟩, ⟨?_, ?_⟩, ⟨trivial, hcommit _ ?_⟩, trivial⟩
    · show Directory.find? _ _ = _
      decide +kernel
    · show TxnId.mk 5 ≠ TxnId.mk 3
      decide
    · decide +kernel
  exact repeatable_reads hfresh hbefore rfl rfl (by decide +kernel) hafter (by decide +kernel)

/-- A step that the reader's family has no part in, with commits after the reader's begin. -/
def Step.Foreign (reader : View) (e : Engine) : Step → Prop
  | .begin view => ∀ parent, view.parent = some parent → ¬ Ascends e.directory parent reader.id
  | .commit id ts => reader.begin < ts ∧ ¬ Ascends e.directory id reader.id
  | .rollback id => ¬ Ascends e.directory id reader.id
  | .keepAlive id => ¬ Ascends e.directory id reader.id
  | .applyBatch _ _ txn _ => ¬ Ascends e.directory txn.id reader.id
  | _ => True

/-- Foreign steps alone do not keep reads repeatable: a child that begins, writes and commits after the
reader's begin, below a root that had committed before it, appears in the reader's snapshot. -/
theorem not_repeatable_reads_of_foreign :
    ¬ ∀ (e : Engine) (before after : List Step) (reader : View) (key : Bytes), e.IsFresh →
      e.Admits Step.Lawful before → reader.parent = none →
      reader.isolation = .snapshotIsolation →
      (e.run before).directory.find? reader.id = some reader →
      (e.run before).Admits (fun e step => step.Lawful e ∧ step.Foreign reader e) after →
      ((e.run before).run after).directory.phase reader.id = .ok .active →
      (((e.run before).run after).get reader key).1 = ((e.run before).get reader key).1 := by
  intro h
  have hforeign : (LateChild.engine.run LateChild.before).Admits
      (fun e step => step.Lawful e ∧ step.Foreign LateChild.reader e) LateChild.after := by
    refine ⟨⟨trivial, fun parent hparent => ?_⟩, ⟨?_, ?_⟩, ⟨trivial, by decide, ?_⟩, trivial⟩
    · cases hparent
      exact LateChild.root_foreign (by decide +kernel)
    · show Directory.find? _ _ = _
      decide +kernel
    · exact LateChild.child_foreign (by decide +kernel) (by decide +kernel)
    · exact LateChild.child_foreign (by decide +kernel) (by decide +kernel)
  have hread := h LateChild.engine LateChild.before LateChild.after LateChild.reader [1]
    (Engine.isFresh_of_empty {} {} true none) ⟨trivial, trivial, trivial, trivial⟩ rfl rfl
    (by decide +kernel) hforeign (by decide +kernel)
  have hbefore : ((LateChild.engine.run LateChild.before).get LateChild.reader [1]).1 = .ok none := by
    decide +kernel
  have hafter : (((LateChild.engine.run LateChild.before).run LateChild.after).get
      LateChild.reader [1]).1 = .ok (some { kind := .upsert, key := [1], value := [1] }) := by
    decide +kernel
  rw [hbefore, hafter] at hread
  simp at hread

end Multiversion