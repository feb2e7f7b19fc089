import Multiversion.Proofs.Lineage.Evolution
import Multiversion.Proofs.Store.Partitions

/-!
# Background work in any order

A request for background work is decided on the records of its transaction and of the transactions above
it, and what it reads of those no background work changes.  So every request does what it would have done
at the beginning, in whatever order requests are made and however often.

* `View.stem` — what background work reads of a record above a transaction;
* `Directory.dueTimestamp` — the timestamp that is still to be cached on a record;
* `Entry.settle` — the record that a list of requests leaves, told by the records before all of them;
* `TxnStore.Settled` — a store whose log devices do not fail, after some requests.

Main statement: `TxnStore.Settled.execute` — one more request keeps a store settled.
-/

namespace Multiversion

/-- What background work reads of a record above a transaction. -/
structure Stem where
  parent : Option TxnId
  commit : Option Timestamp
  committed : Bool

/-- What background work reads of a record above a transaction, and never changes. -/
def View.stem (v : View) : Stem := ⟨v.parent, v.commit, v.phase = .committed⟩

/-- The commit timestamp of the root that is still to be cached on a record. -/
def Directory.dueTimestamp (d : Directory) (id : TxnId) (v : View) : Option Timestamp :=
  if v.phase = .committed ∧ v.parent.isSome ∧ v.globalCommit = none then
    match Request.rootOf d id maxAncestors v with
    | .ok root => root.bind View.commit
    | .error _ => none
  else none

/-- The record of a transaction after a list of requests, in terms of the records before all of them. -/
def Entry.settle (d : Directory) (rs : List Request) (id : TxnId) (e : Entry) : Entry :=
  { e with
    view := { e.view with
      phase :=
        if ⟨.timedOut, id⟩ ∈ rs ∧ e.view.phase = .active ∧ d.isExpired id = true then .rolledBack
        else e.view.phase
      globalCommit :=
        if ⟨.globalCommit, id⟩ ∈ rs then (d.dueTimestamp id e.view).or e.view.globalCommit
        else e.view.globalCommit } }

namespace Request

/-- The change that a request makes at this moment, if any. -/
def change? (r : Request) (d : Directory) : Option Change :=
  match r.decide d with
  | .ok change => change
  | .error _ => none

theorem execute_store (r : Request) (t : TxnStore) (now : Millis) :
    (r.execute t now).2 =
      match r.change? (t.directory now) with
      | some change => (t.submit now change).2
      | none => t := by
  unfold execute change?
  cases r.decide (t.directory now) with
  | error e => rfl
  | ok change =>
      cases change with
      | none => rfl
      | some change =>
          dsimp only
          split <;> simp [*]

variable {d d' : Directory} {id : TxnId} {v v' : View}

theorem change?_timedOut (hv : d.find? id = some v) :
    change? ⟨.timedOut, id⟩ d =
      if v.phase = .active ∧ d.isExpired id = true then some (.rollback id) else none := by
  have hphase : d.phase id = .ok v.phase := Directory.phase_eq_ok_iff.2 ⟨v, hv, rfl⟩
  simp only [change?, decide, decideTimedOut, hphase, bind, Except.bind, pure, Except.pure,
    Bool.and_eq_true, decide_eq_true_eq]

theorem change?_globalCommit (hv : d.find? id = some v) :
    change? ⟨.globalCommit, id⟩ d = (d.dueTimestamp id v).map (.globalCommit id) := by
  have hget : d.get id = .ok v := Directory.get_eq_ok_iff.2 hv
  simp only [change?, decide, decideGlobalCommit, hget, bind, Except.bind, Directory.dueTimestamp]
  by_cases hdue : v.phase = .committed ∧ v.parent.isSome ∧ v.globalCommit = none
  · obtain ⟨hphase, hparent, hcached⟩ := hdue
    obtain ⟨parent, hparent⟩ := Option.isSome_iff_exists.1 hparent
    simp only [hphase, hparent, hcached]
    cases rootOf d id maxAncestors v with
    | error e => simp
    | ok root => simp [pure, Except.pure]
  · rw [if_neg hdue, if_pos]
    · rfl
    · simpa [Classical.or_iff_not_imp_left, Option.isSome_iff_ne_none] using hdue

theorem change?_of_none (r : Request) (h : d.find? r.id = none) : r.change? d = none := by
  obtain ⟨kind, id⟩ := r
  cases kind <;> simp [change?, decide, decideTimedOut, decideGlobalCommit, Directory.phase, Directory.get,
    show d.find? id = none from h, bind, Except.bind, Functor.map, Except.map]

/-- The walk to the root depends on the stems of the records only. -/
theorem rootOf_congr (hd : ∀ id, (d'.find? id).map View.stem = (d.find? id).map View.stem)
    (hv : v'.stem = v.stem) (id : TxnId) (room : Nat) :
    Option.map View.stem <$> rootOf d' id room v' = Option.map View.stem <$> rootOf d id room v := by
  induction room generalizing v v' with
  | zero =>
      have hparent : v'.parent = v.parent := congrArg Stem.parent hv
      rw [rootOf, rootOf, hparent]
      cases v.parent with
      | none => simp [Functor.map, Except.map, hv]
      | some parent => rfl
  | succ room ih =>
      have hparent : v'.parent = v.parent := congrArg Stem.parent hv
      rw [rootOf, rootOf, hparent]
      cases v.parent with
      | none => simp [Functor.map, Except.map, hv]
      | some parent =>
          have hstems := hd parent
          simp only [Directory.get]
          cases hu : d.find? parent with
          | none =>
              rw [hu, Option.map_none, Option.map_eq_none_iff] at hstems
              rw [hstems]
          | some u =>
              rw [hu, Option.map_some] at hstems
              obtain ⟨u', hu', hstem⟩ := Option.map_eq_some_iff.1 hstems
              have hphase : u'.phase = .committed ↔ u.phase = .committed := by
                simpa [View.stem] using congrArg Stem.committed hstem
              simp only [hu', hphase]
              split
              · exact ih hstem
              · rfl

end Request

namespace Directory

variable {d d' : Directory} {id : TxnId} {v v' : View}

/-- What is still to be cached depends on the stems of the records above, and on whether anything is
cached. -/
theorem dueTimestamp_congr (hd : ∀ id, (d'.find? id).map View.stem = (d.find? id).map View.stem)
    (hv : v'.stem = v.stem) (hcached : v'.globalCommit = v.globalCommit) :
    d'.dueTimestamp id v' = d.dueTimestamp id v := by
  have hparent : v'.parent = v.parent := congrArg Stem.parent hv
  have hphase : v'.phase = .committed ↔ v.phase = .committed := by
    simpa [View.stem] using congrArg Stem.committed hv
  have hroot := Request.rootOf_congr hd hv id maxAncestors
  have hcommit : ∀ {w w' : Option View}, w'.map View.stem = w.map View.stem →
      w'.bind View.commit = w.bind View.commit := by
    intro w w' h
    have hstems := congrArg (Option.bind · Stem.commit) h
    simp only [Option.bind_map] at hstems
    exact hstems
  simp only [dueTimestamp, hparent, hphase, hcached]
  split
  · cases hwalk : Request.rootOf d id maxAncestors v with
    | error e =>
        cases hwalk' : Request.rootOf d' id maxAncestors v' with
        | error e' => rfl
        | ok root' => simp [hwalk, hwalk', Functor.map, Except.map] at hroot
    | ok root =>
        cases hwalk' : Request.rootOf d' id maxAncestors v' with
        | error e' => simp [hwalk, hwalk', Functor.map, Except.map] at hroot
        | ok root' =>
            simp only [hwalk, hwalk', Functor.map, Except.map, Except.ok.injEq] at hroot
            exact hcommit hroot
  · rfl

theorem dueTimestamp_of_cached (h : v.globalCommit ≠ none) : d.dueTimestamp id v = none := by
  rw [dueTimestamp, if_neg]
  rintro ⟨-, -, hnone⟩
  exact h hnone

theorem dueTimestamp_of_not_committed (h : v.phase ≠ .committed) : d.dueTimestamp id v = none := by
  rw [dueTimestamp, if_neg]
  rintro ⟨hphase, -, -⟩
  exact h hphase

/-- **What is still to be cached** is the commit timestamp of the root of a committed path. -/
theorem path_of_dueTimestamp {ts : Timestamp} (h : d.dueTimestamp id v = some ts) :
    v.phase = .committed ∧ v.parent.isSome ∧ v.globalCommit = none ∧
      ∃ us, Path d v us ∧ rootCommit v us = some ts := by
  unfold dueTimestamp at h
  split at h
  · rename_i hdue
    refine ⟨hdue.1, hdue.2.1, hdue.2.2, ?_⟩
    split at h
    · rename_i root hroot
      obtain ⟨w, rfl, hcommit⟩ := Option.bind_eq_some_iff.1 h
      obtain ⟨us, hpath, hroot⟩ := Request.path_of_rootOf hdue.1 hroot
      exact ⟨us, hpath, hroot.trans hcommit⟩
    · cases h
  · cases h

end Directory

namespace Entry

variable {d : Directory} {rs rs' : List Request} {id : TxnId} {e : Entry}

/-- Only the requests that were made matter, not their order or number. -/
theorem settle_congr (h : ∀ r, r ∈ rs ↔ r ∈ rs') : e.settle d rs id = e.settle d rs' id := by
  simp only [settle, h]

theorem settle_nil : e.settle d [] id = e := by
  simp [settle]

/-- A request for another transaction does not matter. -/
theorem settle_append_other {other : TxnId} (h : other ≠ id) (kind : ResolveKind) :
    e.settle d (rs ++ [⟨kind, other⟩]) id = e.settle d rs id := by
  have hne : ∀ k : ResolveKind, (⟨k, id⟩ : Request) ≠ ⟨kind, other⟩ := by
    rintro k heq
    exact h (congrArg Request.id heq).symm
  simp [settle, hne]

/-- The stem of a record stays as it is. -/
theorem stem_settle : (e.settle d rs id).view.stem = e.view.stem := by
  simp only [settle, View.stem, Stem.mk.injEq, true_and]
  split
  · rename_i h
    simp [h.2.1]
  · rfl

theorem settle_of_rolledBack (hasked : ⟨.timedOut, id⟩ ∈ rs) (hactive : e.view.phase = .active)
    (hexpired : d.isExpired id = true) :
    e.settle d rs id = { e with view := { e.view with phase := .rolledBack } } := by
  have hdue : d.dueTimestamp id e.view = none :=
    Directory.dueTimestamp_of_not_committed (by simp [hactive])
  simp [settle, hasked, hactive, hexpired, hdue]

theorem settle_of_not_rolledBack
    (h : ¬ (⟨.timedOut, id⟩ ∈ rs ∧ e.view.phase = .active ∧ d.isExpired id = true)) :
    e.settle d rs id = { e with
      view := { e.view with
        globalCommit :=
          if ⟨.globalCommit, id⟩ ∈ rs then (d.dueTimestamp id e.view).or e.view.globalCommit
          else e.view.globalCommit } } := by
  rw [settle, if_neg h]

/-- A transaction that is still active has not been touched. -/
theorem settle_of_active (h : (e.settle d rs id).view.phase = .active) : e.settle d rs id = e := by
  by_cases hdue : ⟨.timedOut, id⟩ ∈ rs ∧ e.view.phase = .active ∧ d.isExpired id = true
  · simp [settle_of_rolledBack hdue.1 hdue.2.1 hdue.2.2] at h
  · rw [settle_of_not_rolledBack hdue] at h ⊢
    have hactive : e.view.phase = .active := h
    have hnone : d.dueTimestamp id e.view = none :=
      Directory.dueTimestamp_of_not_committed (by simp [hactive])
    simp [hnone]

theorem settle_append_timedOut :
    e.settle d (rs ++ [⟨.timedOut, id⟩]) id =
      if e.view.phase = .active ∧ d.isExpired id = true then
        { e with view := { e.view with phase := .rolledBack } }
      else e.settle d rs id := by
  split
  · rename_i hdue
    exact settle_of_rolledBack (by simp) hdue.1 hdue.2
  · rename_i hdue
    simp [settle, hdue]

theorem settle_append_globalCommit :
    e.settle d (rs ++ [⟨.globalCommit, id⟩]) id =
      { e.settle d rs id with
        view := { (e.settle d rs id).view with
          globalCommit := (d.dueTimestamp id e.view).or e.view.globalCommit } } := by
  simp [settle]

/-- **What background work does to a record.**  It leaves it alone; or the transaction was active and past
its deadline, this was asked about, and it has been rolled back; or it was nested and had committed with all
its ancestors, nothing was cached, this was asked for, and the commit timestamp of its root is cached now. -/
theorem settle_cases (d : Directory) (rs : List Request) (id : TxnId) (e : Entry) :
    e.settle d rs id = e ∨
      (⟨.timedOut, id⟩ ∈ rs ∧ e.view.phase = .active ∧ d.isExpired id = true ∧
        e.settle d rs id = { e with view := { e.view with phase := .rolledBack } }) ∨
      (⟨.globalCommit, id⟩ ∈ rs ∧ e.view.phase = .committed ∧ e.view.parent.isSome ∧
        e.view.globalCommit = none ∧
        ∃ us ts, Path d e.view us ∧ rootCommit e.view us = some ts ∧
          e.settle d rs id = { e with view := { e.view with globalCommit := some ts } }) := by
  by_cases hdue : ⟨.timedOut, id⟩ ∈ rs ∧ e.view.phase = .active ∧ d.isExpired id = true
  · exact .inr (.inl ⟨hdue.1, hdue.2.1, hdue.2.2, settle_of_rolledBack hdue.1 hdue.2.1 hdue.2.2⟩)
  · rw [settle_of_not_rolledBack hdue]
    by_cases hasked : ⟨.globalCommit, id⟩ ∈ rs
    · cases hts : d.dueTimestamp id e.view with
      | none => exact .inl (by simp)
      | some ts =>
          obtain ⟨hphase, hparent, hnone, us, hpath, hroot⟩ := Directory.path_of_dueTimestamp hts
          exact .inr (.inr ⟨hasked, hphase, hparent, hnone, us, ts, hpath, hroot, by simp [hasked]⟩)
    · exact .inl (by simp [hasked])

end Entry

/-- The argument of an item head takes eight bytes at most. -/
theorem Cbor.Head.length_encode_le (major n : Nat) : (encode major n).length ≤ 9 := by
  unfold encode
  dsimp only
  repeat' split
  all_goals simp

/-- A record that background work leaves fits a frame. -/
theorem LogRecord.fits_rollback (id : TxnId) : (rollback id).payload.length < 4294967296 := by
  have hid := Cbor.Head.length_encode_le 0 id.val.toNat
  simp only [payload, Cbor.unsigned]
  omega

theorem LogRecord.fits_globalCommit (id : TxnId) (ts : Timestamp) :
    (globalCommit id ts).payload.length < 4294967296 := by
  have hhead := Cbor.Head.length_encode_le 4 2
  have hid := Cbor.Head.length_encode_le 0 id.val.toNat
  have hts := Cbor.Head.length_encode_le 0 ts.val.toNat
  simp only [payload, Cbor.unsigned, Cbor.array, List.length_append]
  omega

namespace TxnStore

/-- A store none of whose log devices fails. -/
def Healthy (t : TxnStore) : Prop := ∀ id, (t.partOf id).log.Healthy

variable {t : TxnStore}

theorem directory_isExpired (t : TxnStore) (now : Millis) (id : TxnId) :
    (t.directory now).isExpired id =
      (t.find? id).any fun e => e.isExpired now (t.partOf id).config.timeout := by
  cases t <;> rfl

/-- A request reaches the partition of its transaction, which may be that of other ids too. -/
theorem partOf_submit (t : TxnStore) (now : Millis) (change : Change) (id : TxnId) :
    ((t.submit now change).2.partOf id = ((t.partOf change.txn).submit now change).2 ∧
        t.partOf change.txn = t.partOf id) ∨
      ((t.submit now change).2.partOf id = t.partOf id ∧ change.txn ≠ id) := by
  cases t with
  | single s => exact .inl ⟨rfl, rfl⟩
  | partitioned p =>
      have hpart := p.partition_setPartition change.txn id
        ((p.partition change.txn).submit now change).2
      by_cases howner : (p.owner change.txn).val = (p.owner id).val
      · rw [if_pos howner] at hpart
        exact .inl ⟨hpart, p.partition_congr howner⟩
      · rw [if_neg howner] at hpart
        exact .inr ⟨hpart, fun hid => howner (by rw [hid])⟩

theorem Healthy.submit (h : t.Healthy) (now : Millis) (change : Change) :
    (t.submit now change).2.Healthy := by
  intro id
  rcases t.partOf_submit now change id with ⟨hpart, -⟩ | ⟨hpart, -⟩
  · rw [hpart]
    exact (Store.heeds_submit (h change.txn) now change).2.healthy
  · rw [hpart]
    exact h id

/-- A store none of whose devices fails takes every record that it decides on and that fits a frame. -/
theorem find?_submit_of_healthy (h : t.Healthy) {now : Millis} (change : Change) {r : LogRecord}
    (hdecide : (t.partOf change.txn).ledger.decide now change = .ok (some r))
    (hfits : r.payload.length < 4294967296) (id : TxnId) :
    ((t.submit now change).2.partOf id).config = (t.partOf id).config ∧
      (t.submit now change).2.find? id =
        if change.txn = id then r.revise (t.find? id) else t.find? id := by
  have hverdict : (t.partOf change.txn).ledger.verdict now change = .ok (some r) := by
    rw [Ledger.verdict, hdecide]
    simp [Frame.encode, hfits, Functor.map, Except.map]
  obtain ⟨-, hheeds⟩ := Store.heeds_submit (h change.txn) now change
  have hentries := hheeds.entries id
  rw [hverdict] at hentries
  simp only [Ledger.txn_of_verdict hverdict] at hentries
  rcases t.partOf_submit now change id with ⟨hpart, hsame⟩ | ⟨hpart, hother⟩
  · rw [find?, hpart, hentries, hheeds.config, hsame]
    exact ⟨rfl, rfl⟩
  · rw [find?, hpart, if_neg hother]
    exact ⟨rfl, rfl⟩

/-- One record has changed, and no log device fails. -/
structure Revised (t t' : TxnStore) (id : TxnId) (e : Entry) : Prop where
  healthy : t'.Healthy
  config : ∀ other, (t'.partOf other).config = (t.partOf other).config
  own : t'.find? id = some e
  others : ∀ other, id ≠ other → t'.find? other = t.find? other

theorem revised_rollback (h : t.Healthy) (now : Millis) {id : TxnId} {e : Entry}
    (he : t.find? id = some e) (hactive : e.view.phase = .active) :
    t.Revised (t.submit now (.rollback id)).2 id
      { e with view := { e.view with phase := .rolledBack } } := by
  have hdecide : (t.partOf id).ledger.decide now (.rollback id) = .ok (some (.rollback id)) := by
    simp [Ledger.decide, Ledger.get_eq_ok_iff.2 he, bind, Except.bind, Ledger.decideRollback, hactive]
  have hsubmit := find?_submit_of_healthy h (.rollback id) hdecide (LogRecord.fits_rollback id)
  refine ⟨h.submit now _, fun other => (hsubmit other).1, ?_, fun other hother => ?_⟩
  · rw [(hsubmit id).2, Change.txn, if_pos rfl, he]
    rfl
  · rw [(hsubmit other).2, Change.txn, if_neg hother]

theorem revised_globalCommit (h : t.Healthy) (now : Millis) {id : TxnId} {e : Entry}
    (he : t.find? id = some e) (hcommitted : e.view.phase = .committed)
    (hnone : e.view.globalCommit = none) (ts : Timestamp) :
    t.Revised (t.submit now (.globalCommit id ts)).2 id
      { e with view := { e.view with globalCommit := some ts } } := by
  have hdecide : (t.partOf id).ledger.decide now (.globalCommit id ts) =
      .ok (some (.globalCommit id ts)) := by
    simp [Ledger.decide, Ledger.get_eq_ok_iff.2 he, bind, Except.bind, Ledger.decideGlobalCommit,
      hcommitted, hnone]
  have hsubmit := find?_submit_of_healthy h (.globalCommit id ts) hdecide
    (LogRecord.fits_globalCommit id ts)
  refine ⟨h.submit now _, fun other => (hsubmit other).1, ?_, fun other hother => ?_⟩
  · rw [(hsubmit id).2, Change.txn, if_pos rfl, he]
    rfl
  · rw [(hsubmit other).2, Change.txn, if_neg hother]

/-- A store after some requests for background work, none of its log devices failing. -/
structure Settled (now : Millis) (t₀ t : TxnStore) (done : List Request) : Prop where
  healthy : t.Healthy
  config : ∀ id, (t.partOf id).config = (t₀.partOf id).config
  records : ∀ id, t.find? id = (t₀.find? id).map (Entry.settle (t₀.directory now) done id)

namespace Settled

variable {now : Millis} {t₀ t : TxnStore} {done : List Request} {id : TxnId} {e : Entry}

theorem refl (h : t.Healthy) : Settled now t t [] where
  healthy := h
  config _ := rfl
  records id := by cases t.find? id <;> simp [Entry.settle_nil]

/-- Only which requests were carried out matters. -/
theorem congr (h : Settled now t₀ t done) {done' : List Request} (hsame : ∀ r, r ∈ done ↔ r ∈ done') :
    Settled now t₀ t done' where
  healthy := h.healthy
  config := h.config
  records id := by
    have hsettle : Entry.settle (t₀.directory now) done id = Entry.settle (t₀.directory now) done' id := by
      funext e
      exact Entry.settle_congr hsame
    rw [← hsettle]
    exact h.records id

theorem stems (h : Settled now t₀ t done) (id : TxnId) :
    ((t.directory now).find? id).map View.stem = ((t₀.directory now).find? id).map View.stem := by
  rw [directory_find?, directory_find?, h.records]
  cases t₀.find? id <;> simp [Entry.stem_settle]

theorem find? (h : Settled now t₀ t done) (he : t₀.find? id = some e) :
    t.find? id = some (e.settle (t₀.directory now) done id) := by
  rw [h.records, he, Option.map_some]

theorem directory_find? (h : Settled now t₀ t done) (he : t₀.find? id = some e) :
    (t.directory now).find? id = some (e.settle (t₀.directory now) done id).view := by
  rw [TxnStore.directory_find?, h.find? he, Option.map_some]

/-- Another request that finds nothing to do. -/
theorem idle (h : Settled now t₀ t done) {kind : ResolveKind}
    (hsame : ∀ e, t₀.find? id = some e →
      e.settle (t₀.directory now) (done ++ [⟨kind, id⟩]) id = e.settle (t₀.directory now) done id) :
    Settled now t₀ t (done ++ [⟨kind, id⟩]) where
  healthy := h.healthy
  config := h.config
  records other := by
    rw [h.records]
    cases he : t₀.find? other with
    | none => rfl
    | some e =>
        by_cases hid : id = other
        · subst hid
          rw [Option.map_some, Option.map_some, hsame e he]
        · rw [Option.map_some, Option.map_some, Entry.settle_append_other hid]

/-- Another request that changes the record of its transaction. -/
theorem append (h : Settled now t₀ t done) (he : t₀.find? id = some e) {kind : ResolveKind}
    {t' : TxnStore}
    (hrevised : t.Revised t' id (e.settle (t₀.directory now) (done ++ [⟨kind, id⟩]) id)) :
    Settled now t₀ t' (done ++ [⟨kind, id⟩]) where
  healthy := hrevised.healthy
  config other := (hrevised.config other).trans (h.config other)
  records other := by
    by_cases hid : id = other
    · subst hid
      rw [hrevised.own, he, Option.map_some]
    · rw [hrevised.others other hid, h.records]
      cases t₀.find? other <;> simp [Entry.settle_append_other hid]

/-- A transaction is late if it was late before and no request about this has been carried out. -/
theorem late_iff (h : Settled now t₀ t done) (he : t₀.find? id = some e) :
    ((e.settle (t₀.directory now) done id).view.phase = .active ∧
        (t.directory now).isExpired id = true) ↔
      e.view.phase = .active ∧ (t₀.directory now).isExpired id = true ∧ ⟨.timedOut, id⟩ ∉ done := by
  by_cases hdue : ⟨.timedOut, id⟩ ∈ done ∧ e.view.phase = .active ∧
      (t₀.directory now).isExpired id = true
  · simp [Entry.settle_of_rolledBack hdue.1 hdue.2.1 hdue.2.2, hdue.1]
  · have hphase : (e.settle (t₀.directory now) done id).view.phase = e.view.phase := by
      rw [Entry.settle_of_not_rolledBack hdue]
    rw [hphase]
    refine and_congr_right fun hactive => ?_
    have hsame := Entry.settle_of_active (hphase.trans hactive)
    have hexpired : (t.directory now).isExpired id = (t₀.directory now).isExpired id := by
      rw [directory_isExpired, directory_isExpired, h.find? he, hsame, he, h.config]
    rw [hexpired]
    refine ⟨fun hlate => ⟨hlate, fun hasked => ?_⟩, And.left⟩
    exact hdue ⟨hasked, hactive, hlate⟩

theorem execute_timedOut (h : Settled now t₀ t done) (he : t₀.find? id = some e) :
    Settled now t₀ (Request.execute ⟨.timedOut, id⟩ t now).2 (done ++ [⟨.timedOut, id⟩]) := by
  have hlate := h.late_iff he
  rw [Request.execute_store, Request.change?_timedOut (h.directory_find? he)]
  by_cases hchange : (e.settle (t₀.directory now) done id).view.phase = .active ∧
      (t.directory now).isExpired id = true
  · rw [if_pos hchange]
    obtain ⟨hactive, hexpired, -⟩ := hlate.1 hchange
    refine h.append he ?_
    rw [Entry.settle_append_timedOut, if_pos ⟨hactive, hexpired⟩]
    exact revised_rollback h.healthy now (Entry.settle_of_active hchange.1 ▸ h.find? he) hactive
  · rw [if_neg hchange]
    refine h.idle fun e' he' => ?_
    cases he.symm.trans he'
    rw [Entry.settle_append_timedOut]
    split
    · rename_i hdue
      have hasked : ⟨.timedOut, id⟩ ∈ done :=
        Classical.not_not.1 fun hfresh => hchange (hlate.2 ⟨hdue.1, hdue.2, hfresh⟩)
      exact (Entry.settle_of_rolledBack hasked hdue.1 hdue.2).symm
    · rfl

/-- A timestamp is still to be cached if it was before and no request for it has been carried out. -/
theorem dueTimestamp_eq (h : Settled now t₀ t done) (id : TxnId) (e : Entry) :
    (t.directory now).dueTimestamp id (e.settle (t₀.directory now) done id).view =
      if ⟨.globalCommit, id⟩ ∈ done then none else (t₀.directory now).dueTimestamp id e.view := by
  split
  · rename_i hasked
    cases hts : (t₀.directory now).dueTimestamp id e.view with
    | some ts =>
        refine Directory.dueTimestamp_of_cached ?_
        simp [Entry.settle, hasked, hts]
    | none =>
        rw [← hts]
        refine Directory.dueTimestamp_congr h.stems Entry.stem_settle ?_
        simp [Entry.settle, hts]
  · rename_i hfresh
    refine Directory.dueTimestamp_congr h.stems Entry.stem_settle ?_
    simp [Entry.settle, hfresh]

theorem execute_globalCommit (h : Settled now t₀ t done) (he : t₀.find? id = some e) :
    Settled now t₀ (Request.execute ⟨.globalCommit, id⟩ t now).2 (done ++ [⟨.globalCommit, id⟩]) := by
  have hdue := h.dueTimestamp_eq id e
  rw [Request.execute_store, Request.change?_globalCommit (h.directory_find? he)]
  cases hts : (t.directory now).dueTimestamp id (e.settle (t₀.directory now) done id).view with
  | some ts =>
      rw [hts] at hdue
      obtain ⟨hcommitted, -, hnone, -⟩ := Directory.path_of_dueTimestamp hts
      have hbefore : (t₀.directory now).dueTimestamp id e.view = some ts := by
        split at hdue
        · cases hdue
        · exact hdue.symm
      refine h.append he ?_
      rw [Entry.settle_append_globalCommit, hbefore]
      exact revised_globalCommit h.healthy now (h.find? he) hcommitted hnone ts
  | none =>
      rw [hts] at hdue
      refine h.idle fun e' he' => ?_
      cases he.symm.trans he'
      rw [Entry.settle_append_globalCommit]
      by_cases hasked : ⟨.globalCommit, id⟩ ∈ done
      · simp [Entry.settle, hasked]
      · rw [if_neg hasked] at hdue
        simp [Entry.settle, hasked, ← hdue]

/-- **One more request keeps a store settled.** -/
theorem execute (h : Settled now t₀ t done) (r : Request) :
    Settled now t₀ (r.execute t now).2 (done ++ [r]) := by
  obtain ⟨kind, id⟩ := r
  cases he : t₀.find? id with
  | none =>
      have hnone : (t.directory now).find? id = none := by
        rw [TxnStore.directory_find?, h.records, he]
        rfl
      rw [Request.execute_store, Request.change?_of_none _ hnone]
      exact h.idle fun e he' => by simp [he] at he'
  | some e =>
      cases kind with
      | timedOut => exact h.execute_timedOut he
      | globalCommit => exact h.execute_globalCommit he

end Settled

end TxnStore

end Multiversion
