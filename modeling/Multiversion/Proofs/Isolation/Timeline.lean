import Multiversion.Proofs.Isolation.Cells

/-!
# Timelines

A run of the engine together with what an outside observer writes down: the successful writes, newest
first, and the timestamp issued last.  Nothing of this is kept by the engine itself.

* `Write` — a successful write, and whom it overtook: earlier writers of the row that had missed their
  deadline when the write was made;
* `Timeline`, `Timeline.step`, `Timeline.run` — the observed engine;
* `Timeline.Permits` — the runs of plain top-level transactions with ever higher timestamps;
* `Directory.Stamped` — what this means for the records.

Main statement: `TxnStore.stamped_submit` — a timely change keeps the records stamped.
-/

namespace Multiversion

/-- A successful write of a transaction. -/
structure Write where
  writer : TxnId
  key : Bytes
  value : Option Bytes
  -- Earlier writers of the row that had missed their deadline at the time of the write.
  overtook : List TxnId
  deriving DecidableEq, Repr

/-- An engine under observation. -/
structure Timeline where
  engine : Engine
  writes : List Write := []
  issued : Timestamp := .earliest

namespace Change

/-- The timestamp that was issued for a change. -/
def stamp? : Change → Option Timestamp
  | begin view => some view.begin
  | commit _ ts => some ts
  | _ => none

/-- A change of plain top-level transactions, with a timestamp above all that were issued. -/
def Timely (issued : Timestamp) : Change → Prop
  | begin view => view.parent = none ∧ view.additive = false ∧ issued < view.begin
  | commit _ ts => issued < ts
  | _ => True

end Change

/-- The mutations of a batch that succeeded. -/
def succeeded : List Mutation → List Status → List Mutation
  | m :: batch, status :: statuses =>
      if status.isSuccess then m :: succeeded batch statuses else succeeded batch statuses
  | _, _ => []

namespace Timeline

/-- The records at this moment. -/
def directory (t : Timeline) : Directory := t.engine.directory

/-- The earlier writers of a row, other than the one writing now, that have missed their deadline. -/
def overdue (d : Directory) (past : List Write) (txn : View) (key : Bytes) : List TxnId :=
  (past.filter fun w => w.key = key && w.writer ≠ txn.id && d.isExpired w.writer).map Write.writer

/-- The record of a successful mutation. -/
def writeOf (d : Directory) (past : List Write) (txn : View) (m : Mutation) : Write where
  writer := txn.id
  key := m.key
  value := (Region.cellOf txn m).value
  overtook := overdue d past txn m.key

/-- The successful writes of a step, newest first. -/
def written (t : Timeline) : Step → List Write
  | .applyBatch r _ txn batch =>
      ((succeeded batch (r.applyBatch t.directory txn t.engine.cells batch).1).map
        (writeOf t.directory t.writes txn)).reverse
  | _ => []

/-- One step under observation. -/
def step (t : Timeline) (s : Step) : Timeline where
  engine := t.engine.step s
  writes := t.written s ++ t.writes
  issued := (s.change?.bind Change.stamp?).getD t.issued

/-- A run under observation. -/
def run (t : Timeline) (steps : List Step) : Timeline := steps.foldl step t

/-- Whether every step of a run is as required of it at the state in which it is taken. -/
def Admits (required : Timeline → Step → Prop) : Timeline → List Step → Prop
  | _, [] => True
  | t, s :: rest => required t s ∧ Admits required (t.step s) rest

/-- A lawful step of plain top-level transactions, with timestamps above all that were issued. -/
def Permits (t : Timeline) (s : Step) : Prop :=
  s.Lawful t.engine ∧ ∀ change, s.change? = some change → change.Timely t.issued

theorem permits_of_change {t : Timeline} {s : Step} {change : Change} (hs : s.change? = some change)
    (htimely : change.Timely t.issued) : t.Permits s := by
  refine ⟨?_, fun change' hs' => ?_⟩
  · cases s <;> first | exact trivial | cases hs
  · cases hs.symm.trans hs'
    exact htimely

theorem permits_applyBatch {t : Timeline} {txn : View} (h : t.directory.find? txn.id = some txn)
    (r : Region) (resolves : Bool) (batch : List Mutation) :
    t.Permits (.applyBatch r resolves txn batch) :=
  ⟨h, fun _ hs => by cases hs⟩

theorem permits_advance (t : Timeline) (span : Millis) : t.Permits (.advance span) :=
  ⟨trivial, fun _ hs => by cases hs⟩

theorem written_of_change {t : Timeline} {s : Step} {change : Change} (h : s.change? = some change) :
    t.written s = [] := by
  cases s <;> first | rfl | cases h

theorem step_of_isQuiet {t : Timeline} {s : Step} (h : s.isQuiet = true) :
    (t.step s).writes = t.writes ∧ (t.step s).issued = t.issued := by
  cases s <;> first | exact ⟨rfl, rfl⟩ | cases h

/-- A timeline on which nothing has happened yet. -/
structure IsFresh (t : Timeline) : Prop where
  engine : t.engine.IsFresh
  writes : t.writes = []

end Timeline

/-- Records of plain top-level transactions whose begin and commit timestamps have all been issued, and
no begin timestamp twice. -/
structure Directory.Stamped (d : Directory) (issued : Timestamp) : Prop where
  -- Transactions are top-level.
  root : ∀ {id : TxnId} {v : View}, d.find? id = some v → v.parent = none
  -- Transactions are not additive.
  plain : ∀ {id : TxnId} {v : View}, d.find? id = some v → v.additive = false
  -- Begin timestamps have been issued.
  begun : ∀ {id : TxnId} {v : View}, d.find? id = some v → v.begin ≤ issued
  -- Commit timestamps have been issued, after the begin.
  done : ∀ {id : TxnId} {v : View} {c : Timestamp}, d.find? id = some v → v.commit = some c →
    v.phase = .committed ∧ v.begin < c ∧ c ≤ issued
  -- No two transactions begin together.
  distinct : ∀ {id other : TxnId} {v w : View}, d.find? id = some v → d.find? other = some w →
    v.begin = w.begin → id = other

namespace Directory.Stamped

variable {d d' : Directory} {issued issued' : Timestamp}

theorem mono (h : d.Stamped issued) (hle : issued ≤ issued') : d.Stamped issued' where
  root hv := h.root hv
  plain hv := h.plain hv
  begun hv := Timestamp.le_trans (h.begun hv) hle
  done hv hc :=
    have hdone := h.done hv hc
    ⟨hdone.1, hdone.2.1, Timestamp.le_trans hdone.2.2 hle⟩
  distinct hv hw hbegin := h.distinct hv hw hbegin

theorem of_find?_eq (h : d.Stamped issued) (hsame : ∀ id, d'.find? id = d.find? id) :
    d'.Stamped issued := by
  refine ⟨?_, ?_, ?_, ?_, ?_⟩ <;> simp only [hsame]
  · exact h.root
  · exact h.plain
  · exact h.begun
  · exact h.done
  · exact h.distinct

theorem commit_of_active (h : d.Stamped issued) {id : TxnId} {v : View} (hv : d.find? id = some v)
    (hactive : v.phase = .active) : v.commit = none := by
  cases hcommit : v.commit with
  | none => rfl
  | some c =>
      have hdone := (h.done hv hcommit).1
      simp [hactive] at hdone

/-- No transaction begins after the timestamp issued last. -/
theorem begin_ne (h : d.Stamped issued) {id : TxnId} {v : View} (hv : d.find? id = some v)
    {ts : Timestamp} (hts : issued < ts) : v.begin ≠ ts := by
  rintro rfl
  exact Timestamp.not_lt.2 (h.begun hv) hts

/-- The record that a timely change leaves, next to the others. -/
theorem of_accepted (h : d.Stamped issued) {now : Millis} {change : Change}
    (htimely : change.Timely issued) {old : Option Entry} {e : Entry}
    (hold : d.find? change.txn = old.map Entry.view) (haccepted : Change.Accepted now change old e) :
    e.view.parent = none ∧ e.view.additive = false ∧
      e.view.begin ≤ change.stamp?.getD issued ∧
      (∀ c, e.view.commit = some c →
        e.view.phase = .committed ∧ e.view.begin < c ∧ c ≤ change.stamp?.getD issued) ∧
      ∀ {other : TxnId} {w : View}, other ≠ change.txn → d.find? other = some w →
        w.begin ≠ e.view.begin := by
  have hkept : ∀ {v : View}, d.find? change.txn = some v → v.parent = none ∧ v.additive = false ∧
      v.begin ≤ issued ∧ ∀ {other : TxnId} {w : View}, other ≠ change.txn →
        d.find? other = some w → w.begin ≠ v.begin :=
    fun hv => ⟨h.root hv, h.plain hv, h.begun hv, fun hne hw hbegin => hne (h.distinct hw hv hbegin)⟩
  cases haccepted with
  | begin hactive hcommit =>
      obtain ⟨hroot, hplain, hissued⟩ := htimely
      exact ⟨hroot, hplain, Timestamp.le_refl _, by simp [hcommit],
        fun _ hw => h.begin_ne hw hissued⟩
  | @commit id ts e hactive hbegin =>
      obtain ⟨hroot, hplain, hbegun, hothers⟩ := hkept hold
      have hlt : e.view.begin < ts := Timestamp.lt_of_le_of_lt hbegun htimely
      refine ⟨hroot, hplain, Timestamp.le_of_lt hlt, fun c hc => ?_, hothers⟩
      cases hc
      exact ⟨rfl, hlt, Timestamp.le_refl _⟩
  | rollback hactive =>
      obtain ⟨hroot, hplain, hbegun, hothers⟩ := hkept hold
      refine ⟨hroot, hplain, hbegun, fun c hc => ?_, hothers⟩
      have hnone := h.commit_of_active hold hactive
      simp [hnone] at hc
  | globalCommit hcommitted hnone =>
      obtain ⟨hroot, hplain, hbegun, hothers⟩ := hkept hold
      have hdone := fun c => h.done (c := c) hold
      exact ⟨hroot, hplain, hbegun, hdone, hothers⟩
  | keepAlive hactive =>
      obtain ⟨hroot, hplain, hbegun, hothers⟩ := hkept hold
      have hdone := fun c => h.done (c := c) hold
      exact ⟨hroot, hplain, hbegun, hdone, hothers⟩

end Directory.Stamped

namespace TxnStore

theorem le_stamp {change : Change} {issued : Timestamp} (h : change.Timely issued) :
    issued ≤ change.stamp?.getD issued := by
  cases change with
  | begin view => exact Timestamp.le_of_lt h.2.2
  | commit id ts => exact Timestamp.le_of_lt h
  | rollback id => exact Timestamp.le_refl _
  | globalCommit id ts => exact Timestamp.le_refl _
  | keepAlive id => exact Timestamp.le_refl _

/-- **A timely change keeps the records stamped.** -/
theorem stamped_submit {t : TxnStore} {now : Millis} {change : Change} {issued : Timestamp}
    (h : (t.directory now).Stamped issued) (htimely : change.Timely issued) (now' : Millis) :
    ((t.submit now change).2.directory now').Stamped (change.stamp?.getD issued) := by
  rcases t.directory_submit now now' change with hsame | ⟨old, e, haccepted, hfind, hnew, hrest⟩
  · exact (h.mono (le_stamp htimely)).of_find?_eq hsame
  · have hold := h.mono (le_stamp htimely)
    obtain ⟨hroot, hplain, hbegun, hdone, hothers⟩ := h.of_accepted htimely hfind haccepted
    have hcases : ∀ {id : TxnId} {v : View},
        ((t.submit now change).2.directory now').find? id = some v →
          id = change.txn ∧ v = e.view ∨ id ≠ change.txn ∧ (t.directory now).find? id = some v :=
      Directory.find?_cases hnew hrest
    refine ⟨fun hv => ?_, fun hv => ?_, fun hv => ?_, fun hv hc => ?_, fun hv hw hbegin => ?_⟩
    · rcases hcases hv with ⟨-, rfl⟩ | ⟨-, hv⟩
      · exact hroot
      · exact h.root hv
    · rcases hcases hv with ⟨-, rfl⟩ | ⟨-, hv⟩
      · exact hplain
      · exact h.plain hv
    · rcases hcases hv with ⟨-, rfl⟩ | ⟨-, hv⟩
      · exact hbegun
      · exact hold.begun hv
    · rcases hcases hv with ⟨-, rfl⟩ | ⟨-, hv⟩
      · exact hdone _ hc
      · exact hold.done hv hc
    · rcases hcases hv with ⟨rfl, rfl⟩ | ⟨hid, hv⟩
      · rcases hcases hw with ⟨rfl, -⟩ | ⟨hid', hw⟩
        · rfl
        · exact absurd hbegin.symm (hothers hid' hw)
      · rcases hcases hw with ⟨rfl, rfl⟩ | ⟨hid', hw⟩
        · exact absurd hbegin (hothers hid hv)
        · exact h.distinct hv hw hbegin

/-- The commit timestamps of a table after a timely change are old, or above all that were issued. -/
theorem commit_submit {t : TxnStore} {now now' : Millis} {change : Change} {issued : Timestamp}
    (htimely : change.Timely issued) {id : TxnId} {v v' : View}
    (hv : (t.directory now).find? id = some v)
    (hv' : ((t.submit now change).2.directory now').find? id = some v') :
    v'.commit = v.commit ∨ ∃ c, v'.commit = some c ∧ issued < c := by
  rcases t.directory_submit now now' change with hsame | ⟨old, e, haccepted, hold, hnew, hothers⟩
  · cases hv'.symm.trans ((hsame id).trans hv)
    exact .inl rfl
  · by_cases hid : id = change.txn
    · subst hid
      cases hnew.symm.trans hv'
      obtain ⟨entry, rfl, rfl⟩ := Option.map_eq_some_iff.1 (hold.symm.trans hv)
      cases haccepted with
      | commit => exact .inr ⟨_, rfl, htimely⟩
      | rollback => exact .inl rfl
      | globalCommit => exact .inl rfl
      | keepAlive => exact .inl rfl
    · cases hv'.symm.trans ((hothers id hid).trans hv)
      exact .inl rfl

end TxnStore

end Multiversion
