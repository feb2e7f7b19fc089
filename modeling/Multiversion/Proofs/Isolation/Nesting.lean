import Multiversion.Proofs.Isolation.Digest
import Multiversion.Proofs.Isolation.Sessions

/-!
# Sessions of nested transactions

Transactions under snapshot isolation, nested to any depth, whose begin and commit timestamps are issued
in ascending order; a parent is recorded before its children begin.

* `Session.Permits`, `Session.Admits` — the sessions in question;
* `Directory.Ordered` — what they mean for the records;
* `Session.Orderly` — the invariant: records in order, versions recorded, cells a digest of the writes.

Main statement: `Session.orderly_run` — every permitted session is orderly.
-/

namespace Multiversion

/-- A change with a timestamp above all that were issued, and a begin below a recorded parent only. -/
def Change.Nests (d : Directory) (issued : Timestamp) : Change → Prop
  | begin view => view.isolation = .snapshotIsolation ∧ issued < view.begin ∧
      ∀ parent, view.parent = some parent → ∃ u, d.find? parent = some u
  | commit _ ts => issued < ts
  | _ => True

/-- Records of transactions whose begin timestamps have all been issued, none of them twice, and each
after that of the parent. -/
structure Directory.Ordered (d : Directory) (issued : Timestamp) : Prop where
  snapshot : ∀ {id : TxnId} {v : View}, d.find? id = some v → v.isolation = .snapshotIsolation
  begun : ∀ {id : TxnId} {v : View}, d.find? id = some v → v.begin ≤ issued
  distinct : ∀ {id other : TxnId} {v w : View}, d.find? id = some v → d.find? other = some w →
    v.begin = w.begin → id = other
  above : ∀ {id parent : TxnId} {v : View}, d.find? id = some v → v.parent = some parent →
    ∃ u, d.find? parent = some u ∧ u.begin < v.begin

namespace Directory.Ordered

variable {d d' : Directory} {issued issued' : Timestamp}

theorem mono (h : d.Ordered issued) (hle : issued ≤ issued') : d.Ordered issued' where
  snapshot := h.snapshot
  begun hv := Timestamp.le_trans (h.begun hv) hle
  distinct := h.distinct
  above := h.above

theorem of_find?_eq (h : d.Ordered issued) (hsame : ∀ id, d'.find? id = d.find? id) :
    d'.Ordered issued := by
  refine ⟨?_, ?_, ?_, ?_⟩ <;> simp only [hsame]
  · exact h.snapshot
  · exact h.begun
  · exact h.distinct
  · exact h.above

/-- Ancestors begin earlier. -/
theorem begin_lt_of_ascends (h : d.Ordered issued) {id a : TxnId} (ha : Ascends d id a) {u v : View}
    (hu : d.find? id = some u) (hv : d.find? a = some v) : a = id ∨ v.begin < u.begin := by
  induction ha generalizing u with
  | refl id => exact .inl rfl
  | @step id parent a w hw hparent _ ih =>
      cases hu.symm.trans hw
      obtain ⟨p, hp, hbegin⟩ := h.above hw hparent
      right
      rcases ih hp hv with rfl | hlt
      · cases hv.symm.trans hp
        exact hbegin
      · exact Timestamp.lt_of_lt_of_le hlt (Timestamp.le_of_lt hbegin)

/-- The record that an accepted change leaves, next to the others. -/
theorem of_accepted (h : d.Ordered issued) {now : Millis} {change : Change}
    (hnests : change.Nests d issued) {old : Option Entry} {e : Entry}
    (hold : d.find? change.txn = old.map Entry.view) (haccepted : Change.Accepted now change old e) :
    e.view.isolation = .snapshotIsolation ∧ e.view.begin ≤ change.stamp?.getD issued ∧
      (∀ {other : TxnId} {w : View}, other ≠ change.txn → d.find? other = some w →
        w.begin ≠ e.view.begin) ∧
      ∀ {parent : TxnId}, e.view.parent = some parent →
        ∃ u, d.find? parent = some u ∧ u.begin < e.view.begin := by
  have hkept : ∀ {v : View}, d.find? change.txn = some v → v.isolation = .snapshotIsolation ∧
      v.begin ≤ issued ∧
      (∀ {other : TxnId} {w : View}, other ≠ change.txn → d.find? other = some w →
        w.begin ≠ v.begin) ∧
      ∀ {parent : TxnId}, v.parent = some parent →
        ∃ u, d.find? parent = some u ∧ u.begin < v.begin :=
    fun hv => ⟨h.snapshot hv, h.begun hv, fun hne hw hbegin => hne (h.distinct hw hv hbegin),
      h.above hv⟩
  cases haccepted with
  | @begin view hactive hcommit =>
      obtain ⟨hsnapshot, hissued, hparents⟩ := hnests
      refine ⟨hsnapshot, Timestamp.le_refl _, fun _ hw hbegin => ?_, fun {parent} hparent => ?_⟩
      · exact Timestamp.not_lt.2 (h.begun hw) (hbegin ▸ hissued)
      · obtain ⟨u, hu⟩ := hparents parent hparent
        exact ⟨u, hu, Timestamp.lt_of_le_of_lt (h.begun hu) hissued⟩
  | @commit id ts e hactive hbegin =>
      obtain ⟨hsnapshot, hbegun, hothers, habove⟩ := hkept hold
      exact ⟨hsnapshot, Timestamp.le_of_lt (Timestamp.lt_of_le_of_lt hbegun hnests), hothers, habove⟩
  | rollback =>
      obtain ⟨hsnapshot, hbegun, hothers, habove⟩ := hkept hold
      exact ⟨hsnapshot, hbegun, hothers, habove⟩
  | globalCommit =>
      obtain ⟨hsnapshot, hbegun, hothers, habove⟩ := hkept hold
      exact ⟨hsnapshot, hbegun, hothers, habove⟩
  | keepAlive =>
      obtain ⟨hsnapshot, hbegun, hothers, habove⟩ := hkept hold
      exact ⟨hsnapshot, hbegun, hothers, habove⟩

end Directory.Ordered

namespace TxnStore

theorem ordered_submit {t : TxnStore} {now : Millis} {change : Change} {issued : Timestamp}
    (h : (t.directory now).Ordered issued) (hnests : change.Nests (t.directory now) issued)
    (now' : Millis) :
    ((t.submit now change).2.directory now').Ordered (change.stamp?.getD issued) := by
  have hle : issued ≤ change.stamp?.getD issued := by
    cases change with
    | begin view => exact Timestamp.le_of_lt hnests.2.1
    | commit id ts => exact Timestamp.le_of_lt hnests
    | rollback id => exact Timestamp.le_refl _
    | globalCommit id ts => exact Timestamp.le_refl _
    | keepAlive id => exact Timestamp.le_refl _
  have hlater := t.later_submit now now' change
  rcases t.directory_submit now now' change with hsame | ⟨old, e, haccepted, hold, hnew, hrest⟩
  · exact (h.mono hle).of_find?_eq hsame
  · obtain ⟨hsnapshot, hbegun, hothers, habove⟩ := h.of_accepted hnests hold haccepted
    have hcases : ∀ {id : TxnId} {v : View},
        ((t.submit now change).2.directory now').find? id = some v →
          id = change.txn ∧ v = e.view ∨ id ≠ change.txn ∧ (t.directory now).find? id = some v :=
      Directory.find?_cases hnew hrest
    -- A parent keeps its begin timestamp, even if it is the record that changes.
    have hkept : ∀ {parent : TxnId} {ts : Timestamp},
        (∃ u, (t.directory now).find? parent = some u ∧ u.begin < ts) →
          ∃ u, ((t.submit now change).2.directory now').find? parent = some u ∧ u.begin < ts := by
      rintro parent ts ⟨u, hu, hlt⟩
      obtain ⟨u', hu', hevolves⟩ := hlater _ _ hu
      exact ⟨u', hu', hevolves.begin ▸ hlt⟩
    refine ⟨fun hv => ?_, fun hv => ?_, fun hv hw hbegin => ?_, fun hv hparent => ?_⟩
    · rcases hcases hv with ⟨-, rfl⟩ | ⟨-, hv⟩
      · exact hsnapshot
      · exact h.snapshot hv
    · rcases hcases hv with ⟨-, rfl⟩ | ⟨-, hv⟩
      · exact hbegun
      · exact Timestamp.le_trans (h.begun hv) hle
    · rcases hcases hv with ⟨rfl, rfl⟩ | ⟨hid, hv⟩
      · rcases hcases hw with ⟨rfl, -⟩ | ⟨hid', hw⟩
        · rfl
        · exact absurd hbegin.symm (hothers hid' hw)
      · rcases hcases hw with ⟨rfl, rfl⟩ | ⟨hid', hw⟩
        · exact absurd hbegin (hothers hid hv)
        · exact h.distinct hv hw hbegin
    · rcases hcases hv with ⟨-, rfl⟩ | ⟨-, hv⟩
      · exact hkept (habove hparent)
      · exact hkept (h.above hv hparent)

/-- Background work keeps the records in order. -/
theorem Resolved.ordered {now : Millis} {t t' : TxnStore} (hresolved : t.Resolved now t')
    {issued : Timestamp} (h : (t.directory now).Ordered issued) :
    (t'.directory now).Ordered issued := by
  induction hresolved with
  | refl => exact h
  | @submit t t' change htidying _ ih =>
      have hnests : change.Nests (t.directory now) issued ∧ change.stamp? = none := by
        rcases htidying.cases with ⟨id, ts, rfl⟩ | ⟨id, rfl⟩
        · exact ⟨trivial, rfl⟩
        · exact ⟨trivial, rfl⟩
      have hordered := ordered_submit h hnests.1 now
      rw [hnests.2] at hordered
      exact ih hordered

end TxnStore

namespace Session

/-- The moves of sessions of nested transactions: batches carry the record of their transaction, and
nothing goes behind the back of store and regions. -/
def Permits (s : Session) : Move → Prop
  | .step (.sweep _) | .write _ _ | .erase _ _ => False
  | .step step => step.Lawful s.engine ∧
      ∀ change, step.change? = some change → change.Nests s.directory s.timeline.issued
  | _ => True

/-- Whether every move of a session is as required of it at the state in which it is made. -/
def Admits (required : Session → Move → Prop) : Session → List Move → Prop
  | _, [] => True
  | s, m :: rest => required s m ∧ Admits required (s.move m) rest

/-- A session in order: records, versions, and cells as a digest of the writes. -/
structure Orderly (s : Session) : Prop extends s.Sound where
  ordered : s.directory.Ordered s.timeline.issued
  cells : s.engine.cells.Recorded s.directory
  digest : Digest s.directory s.engine.cells s.timeline.writes

variable {s : Session}

theorem Permits.honest {m : Move} (h : s.Permits m) : m.Honest := by
  cases m with
  | step step =>
      cases step with
      | sweep => exact h
      | _ => exact trivial
  | write => exact h.elim
  | _ => exact trivial

theorem Permits.of_step {step : Step} (h : s.Permits (.step step)) : step.Lawful s.engine ∧
    ∀ change, step.change? = some change → change.Nests s.directory s.timeline.issued := by
  cases step with
  | sweep => exact h.elim
  | _ => exact h

theorem permits_of_change {step : Step} {change : Change} (hstep : step.change? = some change)
    (hnests : change.Nests s.directory s.timeline.issued) : s.Permits (.step step) := by
  have hlawful : step.Lawful s.engine := by
    cases step <;> first | exact trivial | cases hstep
  have hchange : ∀ other, step.change? = some other →
      other.Nests s.directory s.timeline.issued := by
    intro other hother
    cases hstep.symm.trans hother
    exact hnests
  cases step with
  | sweep => cases hstep
  | _ => exact ⟨hlawful, hchange⟩

theorem permits_applyBatch {txn : View} (h : s.directory.find? txn.id = some txn) (r : Region)
    (resolves : Bool) (batch : List Mutation) :
    s.Permits (.step (.applyBatch r resolves txn batch)) :=
  ⟨h, fun _ hs => by cases hs⟩

/-- Only steps of the engine are observed. -/
theorem unobserved_move {m : Move} (hm : ∀ step, m ≠ .step step) :
    (s.move m).timeline.writes = s.timeline.writes ∧
      (s.move m).timeline.issued = s.timeline.issued := by
  cases m with
  | step step => exact absurd rfl (hm step)
  | enter reader =>
      simp only [move]
      split <;> exact ⟨rfl, rfl⟩
  | look index key cell =>
      simp only [move]
      split <;> exact ⟨rfl, rfl⟩
  | _ => exact ⟨rfl, rfl⟩

theorem IsFresh.orderly (h : s.IsFresh) : s.Orderly where
  toSound := h.sound
  ordered := by
    have hnone : ∀ id, s.directory.find? id = none := by
      intro id
      rw [directory, Engine.directory, TxnStore.directory_find?, engine, h.timeline.engine.unrecorded]
      rfl
    exact ⟨by simp [hnone], by simp [hnone], by simp [hnone], by simp [hnone]⟩
  cells key c hc := by
    rw [engine, h.timeline.engine.unwritten key] at hc
    exact absurd hc List.not_mem_nil
  digest := by
    rw [h.timeline.writes]
    exact .nil h.timeline.engine.unwritten

/-- **A permitted move keeps a session in order.** -/
theorem orderly_move (h : s.Orderly) {m : Move} (hm : s.Permits m) : (s.move m).Orderly := by
  obtain ⟨heffect, hsound, hlater⟩ := effect_move h.toSound hm.honest
  have hcells : ∀ {cells : CellStore}, cells.Recorded s.directory →
      cells.Recorded (s.move m).directory := fun hc key c hmem => (hc key c hmem).later hlater
  suffices hrest : (s.move m).directory.Ordered (s.move m).timeline.issued ∧
      (s.move m).engine.cells.Recorded (s.move m).directory ∧
      Digest (s.move m).directory (s.move m).engine.cells (s.move m).timeline.writes from
    ⟨hsound, hrest.1, hrest.2.1, hrest.2.2⟩
  have htime : ∀ {store : TxnStore}, (s.move m).engine.store = store →
      ∀ id, (s.move m).directory.find? id = (store.directory s.engine.now).find? id := by
    rintro _ rfl id
    exact TxnStore.directory_find?_congr _ _ _ id
  generalize hstore : (s.move m).engine.store = store' at heffect
  generalize (s.move m).engine.cells = cells' at heffect ⊢
  cases heffect with
  | @change step change hchange =>
      obtain ⟨-, hnests⟩ := hm.of_step
      have hissued : (s.move (.step step)).timeline.issued =
          change.stamp?.getD s.timeline.issued := by
        simp [move, Timeline.step, hchange]
      have hwrites : (s.move (.step step)).timeline.writes = s.timeline.writes := by
        simp [move, Timeline.step, Timeline.written_of_change hchange]
      rw [hissued, hwrites]
      have hordered := TxnStore.ordered_submit h.ordered (hnests change hchange) s.engine.now
      exact ⟨hordered.of_find?_eq (htime hstore), hcells h.cells, h.digest.later hlater⟩
  | @batch r resolves txn batch =>
      obtain ⟨hlawful, -⟩ := hm.of_step
      have hordered := h.ordered.of_find?_eq (htime hstore)
      rcases r.applyBatch_cases h.records txn s.engine.cells batch with
        ⟨hsame, hfailed⟩ | ⟨w, l, -, -, hload, happlied⟩
      · have hwrites : (s.move (.step (.applyBatch r resolves txn batch))).timeline.writes =
            s.timeline.writes := by
          have hnothing : succeeded batch (r.applyBatch s.directory txn s.engine.cells batch).1 = [] :=
            succeeded_eq_nil hfailed
          show ((succeeded batch (r.applyBatch s.directory txn s.engine.cells batch).1).map
            (Timeline.writeOf s.directory s.timeline.writes txn)).reverse ++ s.timeline.writes = _
          rw [hnothing]
          rfl
        rw [hsame, hwrites]
        exact ⟨hordered, hcells h.cells, h.digest.later hlater⟩
      · exact ⟨hordered, hcells (happlied.recorded (Region.recorded_cellOf hlawful hload) h.cells),
          (h.digest.applied hlawful happlied).later hlater⟩
  | tidy hquiet hresolved htidied =>
      have hlog : (s.move m).timeline.writes = s.timeline.writes ∧
          (s.move m).timeline.issued = s.timeline.issued := by
        by_cases hstep : ∃ step, m = .step step
        · obtain ⟨step, rfl⟩ := hstep
          exact Timeline.step_of_isQuiet (hquiet step rfl)
        · exact unobserved_move fun step hm => hstep ⟨step, hm⟩
      have hsince : (store'.directory s.engine.now).Later (s.move m).directory :=
        .of_find?_eq (htime hstore)
      have hswept := htidied.swept fun _ hdue => HandOff.Due.justified hdue
      have hrecorded : s.engine.cells.Recorded (store'.directory s.engine.now) :=
        fun key c hc => (h.cells key c hc).later hresolved.later
      rw [hlog.1, hlog.2]
      exact ⟨(hresolved.ordered h.ordered).of_find?_eq (htime hstore),
        fun key c hc => (hrecorded.swept hswept key c hc).later hsince,
        ((h.digest.later hresolved.later).tidied htidied).later hsince⟩
  | write => exact hm.elim
  | erase => exact hm.elim

theorem orderly_run (h : s.Orderly) {moves : List Move} (hmoves : s.Admits Permits moves) :
    (s.run moves).Orderly := by
  induction moves generalizing s with
  | nil => exact h
  | cons m rest ih => exact ih (orderly_move h hmoves.1) hmoves.2

end Session

end Multiversion
