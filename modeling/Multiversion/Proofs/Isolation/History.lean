import Multiversion.Proofs.Isolation.Digest

/-!
# What the cells tell of the history

Along a timeline of plain top-level transactions the cells are a digest of the writes: each row holds
the last write of every writer that has not been rolled back, by descending begin timestamp, and two
such writers of a row had lifetimes apart, unless one of them overtook the other after a missed
deadline.

* `Follows` — what conflict detection guarantees about a newer and an older write of one row;
* `Overlap` — lifetimes that are not apart;
* `History` — the invariant;
* `Timeline.Orderly` — the invariant of a whole timeline.

Main statement: `Timeline.orderly_run` — every permitted run of a fresh timeline is orderly.
-/

namespace Multiversion

/-- The fates of the work of a top-level transaction, seen from another one. -/
inductive RootFate (d : Directory) (v : View) : Fate → Prop
  | active (hphase : v.phase = .active) : RootFate d v (.active v.id (d.isExpired v.id))
  | rolledBack (hphase : v.phase = .rolledBack) : RootFate d v .rolledBack
  | committed {c : Timestamp} (hphase : v.phase = .committed) (hcommit : v.commit = some c)
      (via : Bool) : RootFate d v (.committed c via)

/-- A version of another top-level transaction has the fate of its writer. -/
theorem Lineage.fateOf_root {d : Directory} (hd : d.Sound) {l : Lineage} {c : Cell} {v : View}
    (hc : c.Recorded d) (hv : d.find? c.writer = some v) (hroot : v.parent = none)
    (hforeign : l.contains c.writer = false) : ∃ f, l.fateOf d c = .ok f ∧ RootFate d v f := by
  have hpathless : ∀ {us : List View} {ts : Timestamp}, Path d v us → rootCommit v us = some ts →
      v.phase = .committed ∧ v.commit = some ts := by
    intro us ts hpath hcommit
    cases hpath with
    | root => simpa only [rootCommit, Option.ite_none_right_eq_some] using hcommit
    | child hparent => simp [hroot] at hparent
  obtain ⟨w, us, hw, hpath, -, -, hcached⟩ := hc
  cases hv.symm.trans hw
  unfold fateOf
  rw [hforeign]
  cases hcommit : c.commit with
  | some ts =>
      obtain ⟨hphase, hts⟩ := hpathless hpath (hcached ts hcommit)
      exact ⟨_, rfl, .committed hphase hts false⟩
  | none =>
      simp only [Bool.false_eq_true, if_false, resolveWriter, hforeign,
        Directory.get_eq_ok_iff.2 hv]
      unfold walk
      cases hphase : v.phase with
      | active => exact ⟨_, by simp, .active hphase⟩
      | rolledBack => exact ⟨_, by simp, .rolledBack hphase⟩
      | committed =>
          obtain ⟨ts, hts⟩ := hd.stamped hv hphase
          cases hglobal : v.globalCommit with
          | none => exact ⟨_, by simp [hroot, hts], .committed hphase hts false⟩
          | some g =>
              obtain ⟨us', hpath', hcommit'⟩ := hd.cached hv hglobal
              obtain ⟨-, hg⟩ := hpathless hpath' hcommit'
              exact ⟨_, by simp, .committed hphase hg false⟩

/-- What holds of a newer write and an older one by another transaction on the same row: unless one of
the two was rolled back, the newer writer overtook the older, or began after its commit.  A version at
the last timestamp there is escapes the conflict check. -/
def Follows (d : Directory) (e f : Write) : Prop :=
  e.key = f.key → e.writer ≠ f.writer → ∀ {u v : View}, d.find? e.writer = some u →
    d.find? f.writer = some v → u.phase ≠ .rolledBack → v.phase ≠ .rolledBack →
    v.begin < .latest →
    f.writer ∈ e.overtook ∨ v.phase = .committed ∧ ∃ c, v.commit = some c ∧ c ≤ u.begin

/-- Neither of two transactions began after the other had committed. -/
def Overlap (u v : View) : Prop :=
  (∀ c, u.commit = some c → v.begin < c) ∧ ∀ c, v.commit = some c → u.begin < c

/-- The cells as a digest of the writes. -/
structure History (d : Directory) (cells : CellStore) (writes : List Write) : Prop where
  -- Versions stand by descending begin timestamp.
  ordered : ∀ key, Cell.NewestFirst (cells.versions key)
  -- No writer has two versions of a row.
  single : ∀ key, ((cells.versions key).map Cell.writer).Nodup
  -- A version is the last write of its writer.
  current : ∀ key, ∀ c ∈ cells.versions key, ∃ w,
    lastWrite? writes c.writer key = some w ∧ w.value = c.value
  -- Writers are recorded, and keep their version unless they are rolled back.
  kept : ∀ w ∈ writes, ∃ v, d.find? w.writer = some v ∧
    (v.phase ≠ .rolledBack → w.writer ∈ (cells.versions w.key).map Cell.writer)
  -- Writes of one row follow each other.
  follows : writes.Pairwise (Follows d)
  -- Whoever is overtaken overlaps with whoever overtakes.
  overtaken : ∀ w ∈ writes, ∀ id ∈ w.overtook, id ≠ w.writer ∧
    ∃ u v, d.find? w.writer = some u ∧ d.find? id = some v ∧ Overlap u v

namespace History

variable {d d' : Directory} {cells : CellStore} {writes : List Write} {issued : Timestamp}

/-- The part of the history that the cells alone must bear out. -/
theorem digest (h : History d cells writes) : cells.Current writes := ⟨h.ordered, h.single, h.current⟩

theorem nil (h : ∀ key, cells.versions key = []) : History d cells [] where
  ordered key := by simp [h, Cell.NewestFirst]
  single key := by simp [h]
  current key c hc := by simp [h] at hc
  kept w hw := by simp at hw
  follows := .nil
  overtaken w hw := by simp at hw

/-- **Records may move on**, as long as new commit timestamps lie above all that were issued. -/
theorem later (h : History d cells writes) (hlater : d.Later d') (hd : d.Stamped issued)
    (hcommits : ∀ {id : TxnId} {v v' : View}, d.find? id = some v → d'.find? id = some v' →
      v'.commit = v.commit ∨ ∃ c, v'.commit = some c ∧ issued < c) : History d' cells writes where
  ordered := h.ordered
  single := h.single
  current := h.current
  kept w hw := by
    obtain ⟨v, hv, hkept⟩ := h.kept w hw
    obtain ⟨v', hv', hevolves⟩ := hlater _ v hv
    exact ⟨v', hv', fun hphase => hkept fun hrolled => hphase (hevolves.rolledBack hrolled)⟩
  follows := by
    refine h.follows.imp_of_mem fun {e f} he hf hfollows => ?_
    intro hkey hwriter u' v' hu' hv' hlive hlive' hbegin
    obtain ⟨u, hu, -⟩ := h.kept e he
    obtain ⟨v, hv, -⟩ := h.kept f hf
    obtain ⟨u'', hu'', hevolves⟩ := hlater _ u hu
    obtain ⟨v'', hv'', hevolves'⟩ := hlater _ v hv
    cases hu''.symm.trans hu'
    cases hv''.symm.trans hv'
    rcases hfollows hkey hwriter hu hv (fun hrolled => hlive (hevolves.rolledBack hrolled))
      (fun hrolled => hlive' (hevolves'.rolledBack hrolled)) (hevolves'.begin ▸ hbegin) with
      hovertook | ⟨hphase, c, hcommit, hle⟩
    · exact .inl hovertook
    · refine .inr ⟨hevolves'.committed hphase, c, (hevolves'.commit hphase).trans hcommit, ?_⟩
      rwa [hevolves.begin]
  overtaken w hw id hid := by
    obtain ⟨hne, u, v, hu, hv, hends, hends'⟩ := h.overtaken w hw id hid
    obtain ⟨u', hu', hevolves⟩ := hlater _ u hu
    obtain ⟨v', hv', hevolves'⟩ := hlater _ v hv
    refine ⟨hne, u', v', hu', hv', fun c hc => ?_, fun c hc => ?_⟩
    · rw [hevolves'.begin]
      rcases hcommits hu hu' with hsame | ⟨ts, hts, hlate⟩
      · exact hends c (hsame ▸ hc)
      · cases hts.symm.trans hc
        exact Timestamp.lt_of_le_of_lt (hd.begun hv) hlate
    · rw [hevolves.begin]
      rcases hcommits hv hv' with hsame | ⟨ts, hts, hlate⟩
      · exact hends' c (hsame ▸ hc)
      · cases hts.symm.trans hc
        exact Timestamp.lt_of_le_of_lt (hd.begun hu) hlate

/-- **A write of an active transaction follows whatever it meets no conflict with.** -/
theorem follows_put (h : History d cells writes) (hd : d.Sound) (hstamped : d.Stamped issued)
    (hcells : cells.Recorded d) {txn : View} (htxn : d.find? txn.id = some txn)
    {past : List Write} (hpast : ∀ w ∈ writes, w.writer ≠ txn.id → w ∈ past) (m : Mutation)
    (hfree : ∀ c ∈ cells.get m.key .everything, ∃ f, (Lineage.ofRoot txn).fateOf d c = .ok f ∧
      f.conflictsWith txn = false) : ∀ f ∈ writes, Follows d (Timeline.writeOf d past txn m) f := by
  intro f hf hkey hwriter u v hu hv hlive hlive' hbegin
  obtain ⟨w, hw, hkept⟩ := h.kept f hf
  cases hw.symm.trans hv
  cases hu.symm.trans htxn
  obtain ⟨c, hc, hcwriter⟩ := List.mem_map.1 (hkept hlive')
  have hrow : m.key = f.key := hkey
  have hother : f.writer ≠ txn.id := fun hsame => hwriter hsame.symm
  have hforeign : c.writer ≠ txn.id := hcwriter ▸ hother
  have hfind : d.find? c.writer = some v := hcwriter ▸ hv
  -- The version of the older write is among those that the batch has looked at.
  have hcovered : c ∈ cells.get m.key .everything := by
    obtain ⟨w, -, hw, -, -, htimestamp, -⟩ := hcells f.key c hc
    cases hfind.symm.trans hw
    rw [CellStore.get_everything, List.mem_filter]
    refine ⟨hrow ▸ hc, ?_⟩
    simp only [Selection.covers, Selection.everything, htimestamp, Bool.and_eq_true,
      decide_eq_true_eq]
    exact ⟨Timestamp.earliest_le _, hbegin⟩
  obtain ⟨fate, hfate, hconflict⟩ := hfree c hcovered
  obtain ⟨fate', hfate', hroot⟩ := Lineage.fateOf_root hd (l := Lineage.ofRoot txn)
    (hcells f.key c hc) hfind (hstamped.root hv)
    (by simpa using fun hown => hforeign (Lineage.contains_ofRoot.1 hown))
  cases Except.ok.inj (hfate.symm.trans hfate')
  cases hroot with
  | active hphase =>
      left
      simp only [Fate.conflictsWith, Bool.not_eq_false', hd.keyed hv] at hconflict
      refine List.mem_map.2 ⟨f, List.mem_filter.2 ⟨hpast f hf hother, ?_⟩, rfl⟩
      simp [hrow, hother, hconflict]
  | rolledBack hphase => exact absurd hphase hlive'
  | committed hphase hcommit via =>
      right
      simp only [Fate.conflictsWith, decide_eq_false_iff_not] at hconflict
      exact ⟨hphase, _, hcommit, Timestamp.not_lt.1 hconflict⟩

/-- **The digest after a successful write** of an active transaction. -/
theorem put (h : History d cells writes) (hd : d.Sound) (hstamped : d.Stamped issued)
    (hcells : cells.Recorded d) {txn : View} (htxn : d.find? txn.id = some txn)
    (hactive : txn.phase = .active) {past : List Write}
    (hpast : ∀ w ∈ writes, w.writer ≠ txn.id → w ∈ past)
    (hexpired : ∀ w ∈ past, d.isExpired w.writer = true →
      ∃ v, d.find? w.writer = some v ∧ v.phase = .active) (m : Mutation)
    (hfree : ∀ c ∈ cells.get m.key .everything, ∃ f, (Lineage.ofRoot txn).fateOf d c = .ok f ∧
      f.conflictsWith txn = false) :
    History d (cells.put m.key (Region.cellOf txn m)) (Timeline.writeOf d past txn m :: writes) where
  ordered := (h.digest.put (w := Timeline.writeOf d past txn m) rfl rfl).ordered
  single := (h.digest.put (w := Timeline.writeOf d past txn m) rfl rfl).single
  current := (h.digest.put (w := Timeline.writeOf d past txn m) rfl rfl).current
  kept w hw := by
    rcases List.mem_cons.1 hw with rfl | hw
    · exact ⟨txn, htxn, fun _ => CellStore.mem_writers_put.2 (.inr ⟨rfl, rfl⟩)⟩
    · obtain ⟨v, hv, hkept⟩ := h.kept w hw
      exact ⟨v, hv, fun hlive => CellStore.mem_writers_put.2 (.inl (hkept hlive))⟩
  follows :=
    List.pairwise_cons.2 ⟨h.follows_put hd hstamped hcells htxn hpast m hfree, h.follows⟩
  overtaken w hw id hid := by
    rcases List.mem_cons.1 hw with rfl | hw
    · obtain ⟨f, hf, rfl⟩ := List.mem_map.1 hid
      simp only [List.mem_filter, Bool.and_eq_true, decide_eq_true_eq] at hf
      obtain ⟨hf, ⟨-, hother⟩, hoverdue⟩ := hf
      obtain ⟨v, hv, hactive'⟩ := hexpired f hf hoverdue
      refine ⟨hother, txn, v, htxn, hv, fun c hc => ?_, fun c hc => ?_⟩
      · simp [hstamped.commit_of_active htxn hactive] at hc
      · simp [hstamped.commit_of_active hv hactive'] at hc
    · exact h.overtaken w hw id hid

/-- The digest after a batch of an active transaction. -/
theorem applied (h : History d cells writes) (hd : d.Sound) (hstamped : d.Stamped issued)
    (hcells : cells.Recorded d) {txn : View} (htxn : d.find? txn.id = some txn)
    (hactive : txn.phase = .active) {past : List Write}
    (hpast : ∀ w ∈ writes, w.writer ≠ txn.id → w ∈ past)
    (hexpired : ∀ w ∈ past, d.isExpired w.writer = true →
      ∃ v, d.find? w.writer = some v ∧ v.phase = .active)
    {cells' : CellStore} {batch : List Mutation} {statuses : List Status}
    (happlied : Region.Applied d txn (Lineage.ofRoot txn) cells batch statuses cells') :
    History d cells'
      (((succeeded batch statuses).map (Timeline.writeOf d past txn)).reverse ++ writes) := by
  have hload : Lineage.load d txn = .ok (Lineage.ofRoot txn) :=
    Lineage.load_root (hstamped.root htxn)
  induction happlied generalizing writes with
  | nil => exact h
  | skip hstatus _ ih =>
      rw [succeeded, if_neg (by simp [hstatus])]
      exact ih h hcells hpast
  | @put cells cells' m batch status statuses hstatus hfree _ ih =>
      rw [succeeded, if_pos hstatus, List.map_cons, List.reverse_cons, List.append_assoc]
      refine ih (h.put hd hstamped hcells htxn hactive hpast hexpired m
        (hfree (hstamped.plain htxn))) (hcells.put m.key (Region.recorded_cellOf htxn hload m))
        fun w hw hother => ?_
      rcases List.mem_cons.1 hw with rfl | hw
      · exact absurd rfl hother
      · exact hpast w hw hother

theorem applyTo (h : History d cells writes) (hd : d.Stamped issued) {handOff : HandOff}
    (hjustified : handOff.Justified d) : History d (handOff.applyTo cells).2 writes where
  ordered := (h.digest.applyTo handOff).ordered
  single := (h.digest.applyTo handOff).single
  current := (h.digest.applyTo handOff).current
  kept w hw := by
    obtain ⟨v, hv, hkept⟩ := h.kept w hw
    refine ⟨v, hv, fun hlive => CellStore.mem_writers_applyTo.2 ⟨hkept hlive, ?_⟩⟩
    -- Only the versions of a writer that was rolled back are removed.
    rintro rfl
    obtain ⟨a, u, hascends, hu, hphase⟩ := hjustified
    cases hascends.eq_of_root hv (hd.root hv)
    cases hv.symm.trans hu
    exact hlive hphase
  follows := h.follows
  overtaken := h.overtaken

theorem swept (h : History d cells writes) (hd : d.Stamped issued) {cells' : CellStore}
    (hswept : cells.Swept d cells') : History d cells' writes := by
  induction hswept with
  | refl => exact h
  | apply hjustified _ ih => exact ih (h.applyTo hd hjustified)

end History

theorem History.of_time {t : TxnStore} {now : Millis} {cells : CellStore} {writes : List Write}
    {issued : Timestamp} (h : History (t.directory now) cells writes)
    (hd : (t.directory now).Stamped issued) (now' : Millis) :
    History (t.directory now') cells writes := by
  refine h.later (Engine.later_directory t now now') hd fun {id v v'} hv hv' => ?_
  rw [t.directory_find?_congr now now'] at hv'
  cases hv.symm.trans hv'
  exact .inl rfl

/-- The digest after a timely change of the records. -/
theorem History.submit {t : TxnStore} {now : Millis} {cells : CellStore} {writes : List Write}
    {issued : Timestamp} (h : History (t.directory now) cells writes)
    (hd : (t.directory now).Stamped issued) {change : Change} (htimely : change.Timely issued)
    (now' : Millis) : History ((t.submit now change).2.directory now') cells writes :=
  h.later (t.later_submit now now' change) hd fun hv hv' => TxnStore.commit_submit htimely hv hv'

/-- Background work on the records keeps them stamped, and the digest right. -/
theorem History.resolved {t t' : TxnStore} {now : Millis} (hresolved : t.Resolved now t')
    {cells : CellStore} {writes : List Write} {issued : Timestamp}
    (h : History (t.directory now) cells writes) (hd : (t.directory now).Stamped issued) :
    History (t'.directory now) cells writes ∧ (t'.directory now).Stamped issued := by
  induction hresolved with
  | refl => exact ⟨h, hd⟩
  | @submit t t' change htidying _ ih =>
      have htimely : change.Timely issued ∧ change.stamp? = none := by
        rcases htidying.cases with ⟨id, ts, rfl⟩ | ⟨id, rfl⟩
        · exact ⟨trivial, rfl⟩
        · exact ⟨trivial, rfl⟩
      have hstamped := TxnStore.stamped_submit hd htimely.1 now
      rw [htimely.2] at hstamped
      exact ih (h.submit hd htimely.1 now) hstamped

namespace Timeline

/-- A timeline whose records are in order and whose cells are a digest of the writes. -/
structure Orderly (t : Timeline) : Prop where
  coherent : t.engine.Coherent
  stamped : t.directory.Stamped t.issued
  history : History t.directory t.engine.cells t.writes

variable {t : Timeline}

theorem IsFresh.orderly (h : t.IsFresh) : t.Orderly where
  coherent := h.engine.coherent
  stamped := by
    have hnone : ∀ id, t.directory.find? id = none := by
      intro id
      rw [directory, Engine.directory, TxnStore.directory_find?, h.engine.unrecorded]
      rfl
    exact ⟨by simp [hnone], by simp [hnone], by simp [hnone], by simp [hnone], by simp [hnone]⟩
  history := by
    rw [h.writes]
    exact .nil h.engine.unwritten

/-- **A permitted step keeps a timeline orderly.** -/
theorem orderly_step (h : t.Orderly) {s : Step} (hs : t.Permits s) : (t.step s).Orderly := by
  obtain ⟨hlawful, htimely⟩ := hs
  have hcoherent := Engine.coherent_step h.coherent hlawful
  obtain ⟨heffect, -⟩ := Engine.effect_step h.coherent.toSound hlawful
  suffices hrest : (t.engine.step s).directory.Stamped (t.step s).issued ∧
      History (t.engine.step s).directory (t.engine.step s).cells (t.step s).writes from
    ⟨hcoherent, hrest.1, hrest.2⟩
  unfold Engine.directory
  generalize (t.engine.step s).now = now'
  generalize (t.engine.step s).store = store' at heffect ⊢
  generalize (t.engine.step s).cells = cells' at heffect ⊢
  have htime : ∀ {store : TxnStore} {cells : CellStore} {writes : List Write} {issued : Timestamp},
      (store.directory t.engine.now).Stamped issued →
      History (store.directory t.engine.now) cells writes →
      (store.directory now').Stamped issued ∧ History (store.directory now') cells writes := by
    intro store cells writes issued hd hhistory
    exact ⟨hd.of_find?_eq (store.directory_find?_congr t.engine.now now'), hhistory.of_time hd now'⟩
  cases heffect with
  | @change s change hchange =>
      have hissued : (t.step s).issued = change.stamp?.getD t.issued := by simp [step, hchange]
      have hwrites : (t.step s).writes = t.writes := by simp [step, written_of_change hchange]
      rw [hissued, hwrites]
      exact ⟨TxnStore.stamped_submit h.stamped (htimely change hchange) now',
        h.history.submit h.stamped (htimely change hchange) now'⟩
  | @batch r resolves txn batch =>
      refine htime h.stamped ?_
      rcases r.applyBatch_cases h.coherent.records txn t.engine.cells batch with
        ⟨hsame, hfailed⟩ | ⟨w, l, hfind, hactive, hload, happlied⟩
      · have hwrites : (t.step (.applyBatch r resolves txn batch)).writes = t.writes := by
          simp [step, written, directory, succeeded_eq_nil hfailed]
        rw [hsame, hwrites]
        exact h.history
      · cases hfind.symm.trans hlawful
        cases hload.symm.trans (Lineage.load_root (h.stamped.root hlawful))
        refine h.history.applied h.coherent.records h.stamped h.coherent.cells hlawful hactive
          (fun w hw _ => hw) (fun w _ hexpired => ?_) happlied
        exact TxnStore.active_of_isExpired hexpired
  | tidy hquiet hresolved hswept =>
      obtain ⟨hwrites, hissued⟩ := step_of_isQuiet (t := t) hquiet
      rw [hwrites, hissued]
      obtain ⟨hhistory, hstamped⟩ := h.history.resolved hresolved h.stamped
      exact htime hstamped (hhistory.swept hstamped hswept)

theorem orderly_run (h : t.Orderly) {steps : List Step} (hsteps : t.Admits Permits steps) :
    (t.run steps).Orderly := by
  induction steps generalizing t with
  | nil => exact h
  | cons s rest ih => exact ih (orderly_step h hsteps.1) hsteps.2

end Timeline

end Multiversion
