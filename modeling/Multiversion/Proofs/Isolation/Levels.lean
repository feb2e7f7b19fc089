import Multiversion.Proofs.Isolation.FirstCommitter

/-!
# What the isolation levels promise

The value of a row for a reader, told by the history alone (`Timeline.Expected`): the reader's own last
write if it has one, and otherwise the last write of the latest writer that its isolation level lets it
see.

* `Isolation.Shows` — which transactions a level shows to a reader;
* `Timeline.Latest` — the latest of them to have written a row: by commit timestamp, or by the order of
  the writes where work in progress is shown;
* `Timeline.Punctual` — nobody misses a deadline.

Cells stand by begin timestamp, while the promise is about commits.  Both orders agree because
conflict detection keeps the lifetimes of the writers of one row apart (`Orderly.apart_of_begin`).

Main statement: `Timeline.get_eq_expected`.
-/

namespace Multiversion

/-- Whether an isolation level shows the work of a transaction to a reader. -/
def Isolation.Shows (reader v : View) : Prop :=
  match reader.isolation with
  | .snapshotIsolation => ∃ c, v.commit = some c ∧ c ≤ reader.begin
  | .readCommitted => ∃ c, v.commit = some c
  | .readUncommitted => v.phase ≠ .rolledBack

namespace Timeline

/-- Nobody has missed a deadline. -/
def Punctual (t : Timeline) : Prop := ∀ id, t.directory.isExpired id = false

/-- A writer of a row whose work is shown to the reader. -/
structure Candidate (t : Timeline) (reader : View) (key : Bytes) (v : View) : Prop where
  recorded : t.directory.find? v.id = some v
  wrote : t.Wrote v.id key
  -- Its work is shown.
  shown : Isolation.Shows reader v

/-- The newest write to a row by a transaction that has not been rolled back. -/
def newestLive? (t : Timeline) (key : Bytes) : Option Write :=
  t.writes.find? fun w => w.key = key && t.directory.phase w.writer ≠ .ok .rolledBack

/-- The latest candidate. -/
structure Latest (t : Timeline) (reader : View) (key : Bytes) (v : View) : Prop
    extends t.Candidate reader key v where
  -- Nobody comes after it.
  latest : match reader.isolation with
    | .readUncommitted => ∃ w, t.newestLive? key = some w ∧ w.writer = v.id
    | _ => ∀ {u : View} {c c' : Timestamp}, t.Candidate reader key u → u.commit = some c →
        v.commit = some c' → c ≤ c'

/-- The value of a row for a reader; none if there is none or it was deleted. -/
inductive Expected (t : Timeline) (reader : View) (key : Bytes) : Option Bytes → Prop
  | own {w : Write} (hown : lastWrite? t.writes reader.id key = some w) : Expected t reader key w.value
  | other {v : View} {w : Write} (hown : lastWrite? t.writes reader.id key = none)
      (hlatest : t.Latest reader key v) (hlast : lastWrite? t.writes v.id key = some w) :
      Expected t reader key w.value
  | nobody (hown : lastWrite? t.writes reader.id key = none)
      (hnone : ∀ v, ¬ t.Candidate reader key v) : Expected t reader key none

/-- A timeline on which nobody ever missed a deadline, and on which the last timestamp there is has not
been issued. -/
structure Undisturbed (t : Timeline) : Prop extends t.Orderly where
  punctual : t.Punctual
  -- Nobody has been overtaken.
  calm : ∀ w ∈ t.writes, w.overtook = []
  unexhausted : t.issued < .latest

variable {t : Timeline} {reader : View} {key : Bytes}

theorem wrote_of_lastWrite {id : TxnId} {w : Write} (h : lastWrite? t.writes id key = some w) :
    t.Wrote id key :=
  ⟨w, of_lastWrite h⟩

/-- Nobody shows work that was rolled back. -/
theorem Orderly.live_of_shows (h : t.Orderly) {v : View} (hv : t.directory.find? v.id = some v)
    (hshows : Isolation.Shows reader v) : v.phase ≠ .rolledBack := by
  have hcommitted : ∀ {c : Timestamp}, v.commit = some c → v.phase ≠ .rolledBack := by
    intro c hc
    rw [(h.stamped.done hv hc).1]
    simp
  unfold Isolation.Shows at hshows
  split at hshows
  · obtain ⟨c, hc, -⟩ := hshows
    exact hcommitted hc
  · obtain ⟨c, hc⟩ := hshows
    exact hcommitted hc
  · exact hshows

/-- Whoever is live and has written a row has a version of it. -/
theorem Orderly.mem_of_wrote (h : t.Orderly) {v : View} (hv : t.directory.find? v.id = some v)
    (hlive : v.phase ≠ .rolledBack) (hwrote : t.Wrote v.id key) :
    ∃ c ∈ t.engine.cells.versions key, c.writer = v.id ∧ c.timestamp = v.begin := by
  obtain ⟨w, hw, hwriter, rfl⟩ := hwrote
  obtain ⟨v', hv', hkept⟩ := h.history.kept w hw
  rw [hwriter, hv] at hv'
  cases hv'
  obtain ⟨c, hc, hcwriter⟩ := List.mem_map.1 (hkept hlive)
  obtain ⟨v', us, hv', -, -, htimestamp, -⟩ := h.coherent.cells w.key c hc
  rw [hcwriter, hwriter] at hv'
  cases hv.symm.trans hv'
  exact ⟨c, hc, hcwriter.trans hwriter, htimestamp⟩

namespace Undisturbed

theorem begin_lt_latest (h : t.Undisturbed) {id : TxnId} {v : View}
    (hv : t.directory.find? id = some v) : v.begin < .latest :=
  Timestamp.lt_of_le_of_lt (h.stamped.begun hv) h.unexhausted

/-- **A newer write by another transaction came after the commit of the older one.** -/
theorem apart_of_follows (h : t.Undisturbed) {u v : View} (hu : t.directory.find? u.id = some u)
    (hv : t.directory.find? v.id = some v) (hne : u.id ≠ v.id) (hlive : u.phase ≠ .rolledBack)
    (hlive' : v.phase ≠ .rolledBack) {e f : Write} (he : e ∈ t.writes) (hewriter : e.writer = u.id)
    (hfwriter : f.writer = v.id) (hkey : e.key = f.key) (hfollows : Follows t.directory e f) :
    ∃ c, v.phase = .committed ∧ v.commit = some c ∧ c ≤ u.begin := by
  rcases hfollows hkey (by rwa [hewriter, hfwriter]) (hewriter ▸ hu) (hfwriter ▸ hv) hlive hlive'
    (h.begin_lt_latest hv) with hovertook | ⟨hphase, c, hc, hle⟩
  · rw [h.calm e he] at hovertook
    simp at hovertook
  · exact ⟨c, hphase, hc, hle⟩

/-- Of two live writers of a row, one had committed when the other one began. -/
theorem apart (h : t.Undisturbed) {u v : View} (hu : t.directory.find? u.id = some u)
    (hv : t.directory.find? v.id = some v) (hne : u.id ≠ v.id) (hlive : u.phase ≠ .rolledBack)
    (hlive' : v.phase ≠ .rolledBack) (hwrote : t.Wrote u.id key) (hwrote' : t.Wrote v.id key) :
    (∃ c, v.phase = .committed ∧ v.commit = some c ∧ c ≤ u.begin) ∨
      ∃ c, u.phase = .committed ∧ u.commit = some c ∧ c ≤ v.begin := by
  obtain ⟨e, f, he, hf, hewriter, hekey, hfwriter, hfkey, hfollows | hfollows⟩ :=
    h.follows hne hwrote hwrote'
  · exact .inl (h.apart_of_follows hu hv hne hlive hlive' he hewriter hfwriter
      (hekey.trans hfkey.symm) hfollows)
  · exact .inr (h.apart_of_follows hv hu hne.symm hlive' hlive hf hfwriter hewriter
      (hfkey.trans hekey.symm) hfollows)

/-- **The order of begins is the order of lifetimes.**  Of two live writers of a row, the one that began
earlier had committed when the other one began. -/
theorem apart_of_begin (h : t.Undisturbed) {u v : View} (hu : t.directory.find? u.id = some u)
    (hv : t.directory.find? v.id = some v) (hne : u.id ≠ v.id) (hlive : u.phase ≠ .rolledBack)
    (hlive' : v.phase ≠ .rolledBack) (hwrote : t.Wrote u.id key) (hwrote' : t.Wrote v.id key)
    (hbegin : v.begin ≤ u.begin) : ∃ c, v.phase = .committed ∧ v.commit = some c ∧ c ≤ u.begin := by
  rcases h.apart hu hv hne hlive hlive' hwrote hwrote' with hearlier | ⟨c, -, hc, hle⟩
  · exact hearlier
  · have hdone := h.stamped.done hu hc
    exact absurd (Timestamp.lt_of_lt_of_le hdone.2.1 hle) (Timestamp.not_lt.2 hbegin)

/-- The reader sees a version if it is its own, or if its level shows the writer's work. -/
theorem sees_iff (h : t.Undisturbed) (reader : View) {c : Cell}
    (hc : c ∈ t.engine.cells.versions key) {v : View} (hv : t.directory.find? c.writer = some v) :
    (∃ f, (Lineage.ofRoot reader).fateOf t.directory c = .ok f) ∧
      ((Lineage.ofRoot reader).sees t.directory c = true ↔
        c.writer = reader.id ∨ Isolation.Shows reader v) := by
  by_cases hown : c.writer = reader.id
  · have hfate : (Lineage.ofRoot reader).fateOf t.directory c = .ok .own := by
      simp [Lineage.fateOf, Lineage.resolveWriter, Lineage.contains_ofRoot.2 hown]
    refine ⟨⟨_, hfate⟩, ?_⟩
    simp [Lineage.sees, hfate, Fate.isVisibleTo, hown]
  · have hforeign : (Lineage.ofRoot reader).contains c.writer = false := by
      simpa using fun hcontains => hown (Lineage.contains_ofRoot.1 hcontains)
    obtain ⟨f, hfate, hroot⟩ : ∃ f, (Lineage.ofRoot reader).fateOf t.directory c = .ok f ∧
        RootFate t.directory v f :=
      Lineage.fateOf_root h.coherent.records (h.coherent.cells key c hc) hv (h.stamped.root hv) hforeign
    refine ⟨⟨f, hfate⟩, ?_⟩
    have hsees : (Lineage.ofRoot reader).sees t.directory c = f.isVisibleTo reader := by
      simp only [Lineage.sees, hfate]
      rfl
    rw [hsees]
    simp only [hown, false_or, Isolation.Shows]
    cases hroot with
    | active hphase =>
        have hnone := h.stamped.commit_of_active hv hphase
        cases hisolation : reader.isolation with
        | snapshotIsolation => simp [Fate.isVisibleTo, hisolation, hnone]
        | readCommitted => simp [Fate.isVisibleTo, hisolation, hnone]
        | readUncommitted => simp [Fate.isVisibleTo, hisolation, hphase, h.punctual v.id]
    | rolledBack hphase =>
        have hnone : ∀ c, v.commit ≠ some c := by
          intro c hc
          have hdone := (h.stamped.done hv hc).1
          simp [hphase] at hdone
        cases hisolation : reader.isolation with
        | snapshotIsolation => simp [Fate.isVisibleTo, hnone]
        | readCommitted => simp [Fate.isVisibleTo, hnone]
        | readUncommitted => simp [Fate.isVisibleTo, hphase]
    | committed hphase hcommit via =>
        cases hisolation : reader.isolation with
        | snapshotIsolation => simp [Fate.isVisibleTo, hisolation, hcommit]
        | readCommitted => simp [Fate.isVisibleTo, hisolation, hcommit]
        | readUncommitted => simp [Fate.isVisibleTo, hisolation, hphase]

/-- The version of a row that the reader gets to see. -/
def top? (t : Timeline) (reader : View) (key : Bytes) : Option Cell :=
  ((t.engine.cells.versions key).filter ((Lineage.ofRoot reader).sees t.directory)).head?

theorem get_eq (h : t.Undisturbed) (hreader : t.directory.find? reader.id = some reader)
    (key : Bytes) :
    (t.engine.get reader key).1 =
      .ok (((top? t reader key).bind Cell.value).map fun value => { kind := .upsert, key, value }) := by
  have hwriter : ∀ c ∈ t.engine.cells.versions key, ∃ v, t.directory.find? c.writer = some v ∧
      c.timestamp = v.begin := by
    intro c hc
    obtain ⟨v, us, hv, -, -, htimestamp, -⟩ := h.coherent.cells key c hc
    exact ⟨v, hv, htimestamp⟩
  have hall : t.engine.cells.get key .everything = t.engine.cells.versions key := by
    rw [CellStore.get_everything, List.filter_eq_self]
    intro c hc
    obtain ⟨v, hv, htimestamp⟩ := hwriter c hc
    simp only [Selection.covers, Selection.everything, htimestamp, Bool.and_eq_true,
      decide_eq_true_eq]
    exact ⟨Timestamp.earliest_le _, h.begin_lt_latest hv⟩
  have hresolves : (Lineage.ofRoot reader).Resolves t.directory
      (t.engine.cells.get key .everything) := by
    intro c hc
    rw [hall] at hc
    obtain ⟨v, hv, -⟩ := hwriter c hc
    exact (h.sees_iff reader hc hv).1
  show (Read.get t.directory reader t.engine.cells key).1 = _
  rw [Read.get_of_resolvable (d := t.directory) (Lineage.load_root (h.stamped.root hreader)) hresolves,
    hall]
  rfl

theorem of_top (h : t.Undisturbed) {c : Cell} (hc : top? t reader key = some c) :
    c ∈ t.engine.cells.versions key ∧ (Lineage.ofRoot reader).sees t.directory c = true ∧
      ∀ x ∈ t.engine.cells.versions key, (Lineage.ofRoot reader).sees t.directory x = true →
        x.timestamp ≤ c.timestamp := by
  have hordered := (h.history.ordered key).filter ((Lineage.ofRoot reader).sees t.directory)
  have hmem := List.mem_of_mem_head? hc
  have hsound := List.mem_filter.1 hmem
  refine ⟨hsound.1, hsound.2, fun x hx hsees => ?_⟩
  have hx : x ∈ (t.engine.cells.versions key).filter ((Lineage.ofRoot reader).sees t.directory) :=
    List.mem_filter.2 ⟨hx, hsees⟩
  unfold top? at hc
  cases hfilter : (t.engine.cells.versions key).filter
      ((Lineage.ofRoot reader).sees t.directory) with
  | nil => simp [hfilter] at hc
  | cons c' rest =>
      rw [hfilter] at hc hordered hx
      cases hc
      rcases List.mem_cons.1 hx with rfl | hx
      · exact Timestamp.le_refl _
      · exact (List.pairwise_cons.1 hordered).1 x hx

theorem exists_top {c : Cell} (hc : c ∈ t.engine.cells.versions key)
    (hsees : (Lineage.ofRoot reader).sees t.directory c = true) :
    ∃ c', top? t reader key = some c' := by
  have hmem : c ∈ (t.engine.cells.versions key).filter
      ((Lineage.ofRoot reader).sees t.directory) := List.mem_filter.2 ⟨hc, hsees⟩
  unfold top?
  cases hfilter : (t.engine.cells.versions key).filter
      ((Lineage.ofRoot reader).sees t.directory) with
  | nil => simp [hfilter] at hmem
  | cons c' rest => exact ⟨c', rfl⟩

/-- The reader sees a version of every candidate. -/
theorem sees_of_candidate (h : t.Undisturbed) {v : View} (hv : t.Candidate reader key v) :
    ∃ c ∈ t.engine.cells.versions key, (Lineage.ofRoot reader).sees t.directory c = true ∧
      c.timestamp = v.begin := by
  obtain ⟨c, hc, hwriter, htimestamp⟩ :=
    h.mem_of_wrote hv.recorded (h.live_of_shows hv.recorded hv.shown) hv.wrote
  exact ⟨c, hc, (h.sees_iff reader hc (hwriter ▸ hv.recorded)).2.2 (.inr hv.shown), htimestamp⟩

/-- The writer of the version that the reader gets to see, with its last write. -/
theorem writer_of_top (h : t.Undisturbed) {c : Cell} (hc : top? t reader key = some c) :
    ∃ v w, v.id = c.writer ∧ t.directory.find? v.id = some v ∧ c.timestamp = v.begin ∧
      lastWrite? t.writes v.id key = some w ∧ w.value = c.value ∧
      (v.id = reader.id ∨ t.Candidate reader key v) := by
  obtain ⟨hmem, hsees, -⟩ := h.of_top hc
  obtain ⟨v, us, hv, -, -, htimestamp, -⟩ := h.coherent.cells key c hmem
  obtain ⟨w, hlast, hvalue⟩ := h.history.current key c hmem
  have hkeyed : v.id = c.writer := h.coherent.records.keyed hv
  have hrecorded : t.directory.find? v.id = some v := hkeyed ▸ hv
  rw [← hkeyed] at hlast
  refine ⟨v, w, hkeyed, hrecorded, htimestamp, hlast, hvalue, ?_⟩
  rcases (h.sees_iff reader hmem hv).2.1 hsees with hown | hshown
  · exact .inl (hkeyed.trans hown)
  · exact .inr ⟨hrecorded, wrote_of_lastWrite hlast, hshown⟩

/-- A reader that has written the row gets to see its own version. -/
theorem own_of_top (h : t.Undisturbed) (hreader : t.directory.find? reader.id = some reader)
    (hactive : reader.phase = .active) (hwrote : t.Wrote reader.id key) {c : Cell}
    (hc : top? t reader key = some c) : c.writer = reader.id := by
  obtain ⟨v, w, hkeyed, hv, htimestamp, -, -, hid | hcandidate⟩ := h.writer_of_top hc
  · exact hkeyed.symm.trans hid
  · by_contra hother
    obtain ⟨own, hown, hownwriter, howntimestamp⟩ :=
      h.mem_of_wrote hreader (by simp [hactive]) hwrote
    have hsees := (h.sees_iff reader hown (hownwriter ▸ hreader)).2.2 (.inl hownwriter)
    have hbegin := (h.of_top hc).2.2 own hown hsees
    rw [howntimestamp, htimestamp] at hbegin
    -- A later writer would have had to wait for the reader's commit.
    obtain ⟨ts, hphase, -⟩ := h.apart_of_begin hv hreader (fun hid => hother (hkeyed.symm.trans hid))
      (h.live_of_shows hv hcandidate.shown) (by simp [hactive]) hcandidate.wrote hwrote hbegin
    simp [hactive] at hphase

theorem follows_of_newestLive (h : t.Undisturbed) {w f : Write} (hw : t.newestLive? key = some w)
    (hf : f ∈ t.writes) (hkey : f.key = key) {v : View} (hv : t.directory.find? f.writer = some v)
    (hlive : v.phase ≠ .rolledBack) :
    w ∈ t.writes ∧ w.key = key ∧ t.directory.phase w.writer ≠ .ok .rolledBack ∧
      (f = w ∨ Follows t.directory w f) := by
  obtain ⟨hlivew, newer, older, hwrites, hnewer⟩ := List.find?_eq_some_iff_append.1 hw
  simp only [Bool.and_eq_true, decide_eq_true_eq] at hlivew
  have hfollows := h.history.follows
  have hmem := hf
  rw [hwrites] at hfollows hmem
  refine ⟨by simp [hwrites], hlivew.1, hlivew.2, ?_⟩
  rcases List.mem_append.1 hmem with hf | hf
  · have hdead := hnewer f hf
    have hphase : t.directory.phase f.writer = .ok v.phase := Directory.phase_eq_ok_iff.2 ⟨v, hv, rfl⟩
    simp [hkey, hphase, hlive] at hdead
  · rcases List.mem_cons.1 hf with rfl | hf
    · exact .inl rfl
    · exact .inr ((List.pairwise_cons.1 (List.pairwise_append.1 hfollows).2.1).1 f hf)

/-- Every other candidate had committed when the writer of the version that the reader gets to see
began. -/
theorem apart_of_top (h : t.Undisturbed) {c : Cell} (hc : top? t reader key = some c) {u v : View}
    (htimestamp : c.timestamp = v.begin) (hv : t.Candidate reader key v)
    (hu : t.Candidate reader key u) (hne : u.id ≠ v.id) :
    ∃ ts, u.phase = .committed ∧ u.commit = some ts ∧ ts ≤ v.begin := by
  obtain ⟨x, hx, hsees, hbegin⟩ := h.sees_of_candidate hu
  have hle := (h.of_top hc).2.2 x hx hsees
  rw [hbegin, htimestamp] at hle
  exact h.apart_of_begin hv.recorded hu.recorded hne.symm (h.live_of_shows hv.recorded hv.shown)
    (h.live_of_shows hu.recorded hu.shown) hv.wrote hu.wrote hle

/-- Where work in progress is shown, the writer of the version that the reader gets to see is the last
live one to have written the row. -/
theorem newest_of_top (h : t.Undisturbed) {c : Cell} (hc : top? t reader key = some c) {v : View}
    (htimestamp : c.timestamp = v.begin) (hcandidate : t.Candidate reader key v)
    (hisolation : reader.isolation = .readUncommitted) :
    ∃ w, t.newestLive? key = some w ∧ w.writer = v.id := by
  have hlive := h.live_of_shows hcandidate.recorded hcandidate.shown
  obtain ⟨f, hf, hfwriter, hfkey⟩ := hcandidate.wrote
  have hv : t.directory.find? f.writer = some v := hfwriter ▸ hcandidate.recorded
  have hphase : t.directory.phase f.writer = .ok v.phase := Directory.phase_eq_ok_iff.2 ⟨v, hv, rfl⟩
  cases hnewest : t.newestLive? key with
  | none =>
      have hdead := List.find?_eq_none.1 hnewest f hf
      simp [hfkey, hphase, hlive] at hdead
  | some w =>
      refine ⟨w, rfl, ?_⟩
      obtain ⟨hw, hwkey, hwlive, hfollows⟩ := h.follows_of_newestLive hnewest hf hfkey hv hlive
      by_contra hne
      obtain ⟨u, hu, -⟩ := h.history.kept w hw
      have hkeyed : u.id = w.writer := h.coherent.records.keyed hu
      have hulive : u.phase ≠ .rolledBack := fun hrolled =>
        hwlive (Directory.phase_eq_ok_iff.2 ⟨u, hu, hrolled⟩)
      have hushown : Isolation.Shows reader u := by simpa [Isolation.Shows, hisolation] using hulive
      have hucandidate : t.Candidate reader key u :=
        ⟨hkeyed ▸ hu, ⟨w, hw, hkeyed.symm, hwkey⟩, hushown⟩
      -- Both would have begun after the other's commit.
      obtain ⟨ts, -, hts, hle⟩ := h.apart_of_top hc htimestamp hcandidate hucandidate (hkeyed ▸ hne)
      have hfollows : Follows t.directory w f :=
        hfollows.resolve_left fun hsame => hne (hsame ▸ hfwriter)
      obtain ⟨ts', -, hts', hle'⟩ := h.apart_of_follows hucandidate.recorded hcandidate.recorded
        (hkeyed ▸ hne) hulive hlive hw hkeyed.symm hfwriter (hwkey.trans hfkey.symm) hfollows
      have hlt := (h.stamped.done hucandidate.recorded hts).2.1
      have hlt' := (h.stamped.done hcandidate.recorded hts').2.1
      have hcycle := Timestamp.lt_of_lt_of_le hlt (Timestamp.le_trans hle (Timestamp.le_of_lt hlt'))
      exact Timestamp.not_lt.2 hle' hcycle

/-- **The reader gets to see the version of the latest candidate.** -/
theorem latest_of_top (h : t.Undisturbed) {c : Cell} (hc : top? t reader key = some c) {v : View}
    (htimestamp : c.timestamp = v.begin)
    (hcandidate : t.Candidate reader key v) : t.Latest reader key v := by
  refine ⟨hcandidate, ?_⟩
  split
  · rename_i hisolation
    exact h.newest_of_top hc htimestamp hcandidate hisolation
  · intro u ts ts' hu hts hts'
    by_cases hid : u.id = v.id
    · have hsame := hu.recorded
      rw [hid, hcandidate.recorded] at hsame
      cases hsame
      cases hts.symm.trans hts'
      exact Timestamp.le_refl _
    · obtain ⟨done, -, hdone, hle⟩ := h.apart_of_top hc htimestamp hcandidate hu hid
      cases hdone.symm.trans hts
      have hlt := (h.stamped.done hcandidate.recorded hts').2.1
      exact Timestamp.le_trans hle (Timestamp.le_of_lt hlt)

theorem latest_unique (h : t.Undisturbed) {u v : View} (hu : t.Latest reader key u)
    (hv : t.Latest reader key v) : u.id = v.id := by
  have hulatest := hu.latest
  have hvlatest := hv.latest
  have hushown := hu.shown
  have hvshown := hv.shown
  unfold Isolation.Shows at hushown hvshown
  by_contra hne
  -- Candidates other than work in progress have commit timestamps, which are then equal.
  have hequal : ∀ {c c' : Timestamp}, u.commit = some c → v.commit = some c' → c ≤ c' → ¬ c' ≤ c := by
    intro c c' hc hc' hle hle'
    have hdone := h.stamped.done hu.recorded hc
    have hdone' := h.stamped.done hv.recorded hc'
    have hlive := h.live_of_shows hu.recorded hu.shown
    have hlive' := h.live_of_shows hv.recorded hv.shown
    rcases h.apart hu.recorded hv.recorded hne hlive hlive' hu.wrote hv.wrote with
      ⟨ts, -, hts, hbefore⟩ | ⟨ts, -, hts, hbefore⟩
    · cases hts.symm.trans hc'
      exact Timestamp.not_lt.2 (Timestamp.le_trans hle hbefore) hdone.2.1
    · cases hts.symm.trans hc
      exact Timestamp.not_lt.2 (Timestamp.le_trans hle' hbefore) hdone'.2.1
  cases hisolation : reader.isolation with
  | snapshotIsolation =>
      simp only [hisolation] at hulatest hvlatest hushown hvshown
      obtain ⟨c, hc, -⟩ := hushown
      obtain ⟨c', hc', -⟩ := hvshown
      exact hequal hc hc' (hvlatest hu.toCandidate hc hc') (hulatest hv.toCandidate hc' hc)
  | readCommitted =>
      simp only [hisolation] at hulatest hvlatest hushown hvshown
      obtain ⟨c, hc⟩ := hushown
      obtain ⟨c', hc'⟩ := hvshown
      exact hequal hc hc' (hvlatest hu.toCandidate hc hc') (hulatest hv.toCandidate hc' hc)
  | readUncommitted =>
      simp only [hisolation] at hulatest hvlatest
      obtain ⟨w, hw, hwriter⟩ := hulatest
      obtain ⟨w', hw', hwriter'⟩ := hvlatest
      cases hw.symm.trans hw'
      exact hne (hwriter.symm.trans hwriter')

/-- The value of the version that the reader gets to see is the expected one. -/
theorem expected_top (h : t.Undisturbed) (hreader : t.directory.find? reader.id = some reader)
    (hactive : reader.phase = .active) (key : Bytes) :
    t.Expected reader key ((top? t reader key).bind Cell.value) := by
  cases hown : lastWrite? t.writes reader.id key with
  | some w =>
      have hwrote := wrote_of_lastWrite hown
      obtain ⟨c, hc, hwriter, -⟩ := h.mem_of_wrote hreader (by simp [hactive]) hwrote
      have hsees := (h.sees_iff reader hc (hwriter ▸ hreader)).2.2 (.inl hwriter)
      obtain ⟨c', hc'⟩ := exists_top hc hsees
      obtain ⟨v, w', hkeyed, -, -, hlast, hvalue, -⟩ := h.writer_of_top hc'
      have hid : v.id = reader.id := hkeyed.trans (h.own_of_top hreader hactive hwrote hc')
      rw [hid, hown] at hlast
      cases hlast
      rw [hc', Option.bind_some, ← hvalue]
      exact .own hown
  | none =>
      cases htop : top? t reader key with
      | none =>
          refine .nobody hown fun v hv => ?_
          obtain ⟨c, hc, hsees, -⟩ := h.sees_of_candidate hv
          obtain ⟨c', hc'⟩ := exists_top hc hsees
          simp [htop] at hc'
      | some c =>
          obtain ⟨v, w, hkeyed, hv, htimestamp, hlast, hvalue, hid | hcandidate⟩ := h.writer_of_top htop
          · rw [hid, hown] at hlast
            contradiction
          · rw [Option.bind_some, ← hvalue]
            exact .other hown (h.latest_of_top htop htimestamp hcandidate) hlast

theorem expected_unique (h : t.Undisturbed) {value value' : Option Bytes}
    (hvalue : t.Expected reader key value) (hvalue' : t.Expected reader key value') :
    value = value' := by
  cases hvalue with
  | own hown =>
      cases hvalue' with
      | own hown' => rw [Option.some.inj (hown.symm.trans hown')]
      | other hnone => simp [hown] at hnone
      | nobody hnone => simp [hown] at hnone
  | other hnone hlatest hlast =>
      cases hvalue' with
      | own hown => simp [hown] at hnone
      | other hnone' hlatest' hlast' =>
          rw [h.latest_unique hlatest hlatest'] at hlast
          rw [Option.some.inj (hlast.symm.trans hlast')]
      | nobody hnone' hnobody => exact absurd hlatest.toCandidate (hnobody _)
  | nobody hnone hnobody =>
      cases hvalue' with
      | own hown => simp [hown] at hnone
      | other hnone' hlatest' => exact absurd hlatest'.toCandidate (hnobody _)
      | nobody => rfl

end Undisturbed

/-- Where nobody has missed a deadline, nobody is overtaken. -/
theorem calm_step (hpunctual : t.Punctual) (hcalm : ∀ w ∈ t.writes, w.overtook = []) (s : Step) :
    ∀ w ∈ (t.step s).writes, w.overtook = [] := by
  intro w hw
  rcases List.mem_append.1 hw with hw | hw
  · cases s with
    | applyBatch r resolves txn batch =>
        obtain ⟨m, -, rfl⟩ := List.mem_map.1 (List.mem_reverse.1 hw)
        simp [writeOf, overdue, hpunctual _]
    | _ => simp [written] at hw
  · exact hcalm w hw

theorem undisturbed_run (horderly : t.Orderly) (hcalm : ∀ w ∈ t.writes, w.overtook = [])
    {steps : List Step} (hsteps : t.Admits (fun t s => t.Permits s ∧ t.Punctual) steps)
    (hpunctual : (t.run steps).Punctual) (hissued : (t.run steps).issued < .latest) :
    (t.run steps).Undisturbed := by
  induction steps generalizing t with
  | nil => exact ⟨horderly, hpunctual, hcalm, hissued⟩
  | cons s rest ih =>
      obtain ⟨⟨hpermits, hnow⟩, hrest⟩ := hsteps
      exact ih (orderly_step horderly hpermits) (calm_step hnow hcalm s) hrest hpunctual hissued

/-- **Isolation of top-level transactions.**  On every run of plain top-level transactions with ever
higher timestamps on which nobody misses a deadline, a point read of an active reader returns the one
value that the history promises it. -/
theorem get_eq_expected (hfresh : t.IsFresh) {steps : List Step}
    (hsteps : t.Admits (fun t s => t.Permits s ∧ t.Punctual) steps)
    (hpunctual : (t.run steps).Punctual) (hissued : (t.run steps).issued < .latest) {reader : View}
    (hreader : (t.run steps).directory.find? reader.id = some reader)
    (hactive : reader.phase = .active) (key : Bytes) :
    ∃ value, ((t.run steps).engine.get reader key).1 =
        .ok (value.map fun value => { kind := .upsert, key, value }) ∧
      ∀ other, (t.run steps).Expected reader key other ↔ other = value := by
  have hcalm : ∀ w ∈ t.writes, w.overtook = [] := by simp [hfresh.writes]
  have h := undisturbed_run hfresh.orderly hcalm hsteps hpunctual hissued
  have hexpected := h.expected_top hreader hactive key
  refine ⟨_, h.get_eq hreader key, fun other => ⟨fun hother => ?_, ?_⟩⟩
  · exact h.expected_unique hother hexpected
  · rintro rfl
    exact hexpected

theorem punctual_of_now (h : t.engine.now = 0) : t.Punctual := by
  intro id
  have helapsed : ∀ since : Millis, Clock.elapsed 0 since = 0 := by
    intro since
    unfold Clock.elapsed
    split
    · rename_i hle
      have hzero : since.toNat ≤ 0 := UInt64.le_iff_toNat_le.1 hle
      have : since = 0 := UInt64.toNat_inj.1 (Nat.le_zero.1 hzero)
      rw [this]
      rfl
    · rfl
  have hentry : ∀ (e : Entry) (timeout : Nat), e.isExpired 0 timeout = false := by
    intro e timeout
    simp [Entry.isExpired, helapsed]
  unfold directory Engine.directory
  rw [h]
  cases t.engine.store with
  | single s => simp [TxnStore.directory, Store.directory, Ledger.directory, hentry]
  | partitioned p =>
      simp [TxnStore.directory, PartitionedStore.directory, Store.directory, Ledger.directory, hentry]

end Timeline

namespace TwoWriters

/-- An engine with an empty store. -/
def timeline : Timeline where
  engine := { store := .single (.empty {}) }

/-- A reader that begins after one writer has committed, and while another one is at work. -/
def reader : View := { id := ⟨3⟩, begin := ⟨4⟩ }

/-- A writer writes a row and commits; another one overwrites it; the reader begins. -/
def steps : List Step :=
  [.begin { id := ⟨1⟩, begin := ⟨1⟩ },
    .applyBatch { name := "rows" } false { id := ⟨1⟩, begin := ⟨1⟩ }
      [{ kind := .upsert, key := [1], value := [1] }],
    .commit ⟨1⟩ ⟨2⟩,
    .begin { id := ⟨2⟩, begin := ⟨3⟩ },
    .applyBatch { name := "rows" } false { id := ⟨2⟩, begin := ⟨3⟩ }
      [{ kind := .upsert, key := [1], value := [2] }],
    .begin reader]

theorem admits : timeline.Admits (fun t s => t.Permits s ∧ t.Punctual) steps := by
  refine ⟨⟨Timeline.permits_of_change rfl ⟨rfl, rfl, ?_⟩, Timeline.punctual_of_now (by decide +kernel)⟩,
    ⟨Timeline.permits_applyBatch ?_ _ _ _, Timeline.punctual_of_now (by decide +kernel)⟩,
    ⟨Timeline.permits_of_change rfl ?_, Timeline.punctual_of_now (by decide +kernel)⟩,
    ⟨Timeline.permits_of_change rfl ⟨rfl, rfl, ?_⟩, Timeline.punctual_of_now (by decide +kernel)⟩,
    ⟨Timeline.permits_applyBatch ?_ _ _ _, Timeline.punctual_of_now (by decide +kernel)⟩,
    ⟨Timeline.permits_of_change rfl ⟨rfl, rfl, ?_⟩, Timeline.punctual_of_now (by decide +kernel)⟩,
    trivial⟩
  · decide
  · decide +kernel
  · show Timestamp.mk 1 < ⟨2⟩
    decide
  · show Timestamp.mk 2 < ⟨3⟩
    decide
  · decide +kernel
  · show Timestamp.mk 3 < ⟨4⟩
    decide

end TwoWriters

/-- The promised value, where one writer has committed and another one is at work. -/
theorem get_eq_expected_twoWriters :
    ∃ value, ((TwoWriters.timeline.run TwoWriters.steps).engine.get TwoWriters.reader [1]).1 =
        .ok (value.map fun value => { kind := .upsert, key := [1], value }) ∧
      ∀ other, (TwoWriters.timeline.run TwoWriters.steps).Expected TwoWriters.reader [1] other ↔
        other = value :=
  Timeline.get_eq_expected ⟨Engine.isFresh_of_empty {} {} true none, rfl⟩ TwoWriters.admits
    (Timeline.punctual_of_now (by decide +kernel)) (by decide +kernel) (by decide +kernel) rfl [1]

end Multiversion
