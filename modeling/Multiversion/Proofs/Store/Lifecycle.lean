import Multiversion.Proofs.Store.StrayRecords

/-!
# The life of a transaction

A transaction is recorded active, and is committed or rolled back at most once.  Devices may fail
during any call: what a failed call leaves on the log is not in the ledger, so it is no part of what is
said here.

* `View.Coherent` — the timestamps of a record fit its phase;
* `View.Develops` — what becomes of a record as time goes on;
* `TxnEnding` — how a transaction may be asked to end, and `Store.granted` — the endings that calls were
  granted;
* `Store.view_cases` — a call succeeds and changes one record, or it leaves the ledger alone.

Main statement: `Store.lifecycle` — along every run from an empty store, all records are coherent and
develop from what they were recorded as, and the first ending that is granted to a transaction decides.
-/

namespace Multiversion

/-- How a transaction may be asked to end. -/
inductive TxnEnding where
  | commit (ts : Timestamp)
  | rollback
  deriving DecidableEq, Repr

namespace TxnEnding

/-- The request for an ending. -/
def request (id : TxnId) : TxnEnding → Change
  | commit ts => .commit id ts
  | rollback => .rollback id

/-- What an ending makes of a record. -/
def apply (v : View) : TxnEnding → View
  | commit ts => { v with phase := .committed, commit := some ts }
  | rollback => { v with phase := .rolledBack }

/-- Whether a record has had an ending. -/
def Shows (v : View) : TxnEnding → Prop
  | commit ts => v.phase = .committed ∧ v.commit = some ts
  | rollback => v.phase = .rolledBack

theorem shows_apply (e : TxnEnding) (v : View) : e.Shows (e.apply v) := by
  cases e with
  | commit ts => exact ⟨rfl, rfl⟩
  | rollback => rfl

theorem Shows.isTerminal {e : TxnEnding} {v : View} (h : e.Shows v) : v.phase.isTerminal = true := by
  cases e with
  | commit ts => rw [h.1]; rfl
  | rollback => rw [show v.phase = .rolledBack from h]; rfl

end TxnEnding

/-- The ending that a request asks for a transaction. -/
def Change.ending? (id : TxnId) : Change → Option TxnEnding
  | .commit other ts => if other = id then some (.commit ts) else none
  | .rollback other => if other = id then some .rollback else none
  | _ => none

theorem Change.ending?_eq_some {change : Change} {id : TxnId} {e : TxnEnding} :
    change.ending? id = some e ↔ change = e.request id := by
  cases change <;> cases e <;> simp [ending?, TxnEnding.request]

namespace View

/-- The timestamps of a record fit its phase. -/
def Coherent (v : View) : Prop :=
  match v.phase with
  | .active | .rolledBack => v.commit = none ∧ v.globalCommit = none
  | .committed => ∃ ts, v.commit = some ts ∧ v.begin ≤ ts

/-- What becomes of a record: only its phase and its timestamps of commits change, it keeps the phase
in which it has ended, and a timestamp that is set stays. -/
structure Develops (v v' : View) : Prop where
  outline : v' = { v with phase := v'.phase, commit := v'.commit, globalCommit := v'.globalCommit }
  phase : v.phase.isTerminal = true → v'.phase = v.phase
  commit : ∀ ts, v.commit = some ts → v'.commit = some ts
  globalCommit : ∀ ts, v.globalCommit = some ts → v'.globalCommit = some ts

theorem Coherent.of_active {v : View} (h : v.Coherent) (hactive : v.phase = .active) :
    v.commit = none ∧ v.globalCommit = none := by
  simpa [Coherent, hactive] using h

namespace Develops

theorem refl (v : View) : v.Develops v := ⟨rfl, fun _ => rfl, fun _ h => h, fun _ h => h⟩

theorem trans {u v w : View} (h : u.Develops v) (h' : v.Develops w) : u.Develops w where
  outline := h'.outline.trans (congrArg (fun x : View =>
    { x with phase := w.phase, commit := w.commit, globalCommit := w.globalCommit }) h.outline)
  phase hended := (h'.phase (by rw [h.phase hended, hended])).trans (h.phase hended)
  commit ts hts := h'.commit ts (h.commit ts hts)
  globalCommit ts hts := h'.globalCommit ts (h.globalCommit ts hts)

/-- An ending stays. -/
theorem shows {v v' : View} (h : v.Develops v') {e : TxnEnding} (he : e.Shows v) : e.Shows v' := by
  have hphase := h.phase he.isTerminal
  cases e with
  | commit ts => exact ⟨hphase.trans he.1, h.commit ts he.2⟩
  | rollback => exact hphase.trans he

end Develops

end View

namespace Change.Accepted

variable {now : Millis} {change : Change} {old : Option Entry} {e e' : Entry} {ending : TxnEnding}

/-- **An accepted request** leaves a coherent record. -/
theorem coherent (h : Accepted now change old e') (hold : ∀ e ∈ old, e.view.Coherent) :
    e'.view.Coherent := by
  cases h with
  | begin hactive hcommit => simp [View.Coherent, hactive, hcommit]
  | @commit _ ts e hactive hbegin => exact ⟨ts, rfl, UInt64.not_lt.1 hbegin⟩
  | rollback hactive => exact (hold _ rfl).of_active hactive
  | globalCommit hcommitted _ => simpa [View.Coherent, hcommitted] using hold _ rfl
  | @keepAlive _ e _ => exact hold e rfl

/-- It develops the record that there was. -/
theorem develops (h : Accepted now change (some e) e') (hcoherent : e.view.Coherent) :
    e.view.Develops e'.view := by
  cases h with
  | commit hactive _ =>
      obtain ⟨hcommit, -⟩ := hcoherent.of_active hactive
      exact ⟨rfl, by simp [hactive, Phase.isTerminal], by simp [hcommit], fun _ h => h⟩
  | rollback hactive => exact ⟨rfl, by simp [hactive, Phase.isTerminal], fun _ h => h, fun _ h => h⟩
  | globalCommit _ hnone => exact ⟨rfl, fun _ => rfl, fun _ h => h, by simp [hnone]⟩
  | keepAlive _ => exact .refl _

/-- There was a record to end, and it is ended as the request asks. -/
theorem ended (h : Accepted now change old e') (hending : change.ending? change.txn = some ending) :
    ∃ e, old = some e ∧ e'.view = ending.apply e.view := by
  cases h with
  | commit _ _ =>
      obtain rfl : TxnEnding.commit _ = ending := by simpa [ending?, txn] using hending
      exact ⟨_, rfl, rfl⟩
  | rollback _ =>
      obtain rfl : TxnEnding.rollback = ending := by simpa [ending?, txn] using hending
      exact ⟨_, rfl, rfl⟩
  | begin | globalCommit | keepAlive => contradiction

/-- No other request ends an active transaction. -/
theorem stays_active (h : Accepted now change old e') (hending : change.ending? change.txn = none)
    (hold : ∀ e ∈ old, e.view.phase = .active) : e'.view.phase = .active := by
  cases h with
  | begin hactive _ => exact hactive
  | commit | rollback => simp [ending?, txn] at hending
  | globalCommit hcommitted _ => simp [hold _ rfl] at hcommitted
  | keepAlive hactive => exact hactive

/-- Only a begin finds no record. -/
theorem begin_of_none (h : Accepted now change none e') :
    ∃ view, change = .begin view ∧ e'.view = { view with globalCommit := none } := by
  cases h
  exact ⟨_, rfl, rfl⟩

end Change.Accepted

namespace Ledger

/-- The timestamps of all records fit their phases. -/
def Coherent (l : Ledger) : Prop := ∀ id v, l.view? id = some v → v.Coherent

/-- How the record of a transaction goes with the endings that it was granted. -/
def Follows (l : Ledger) (id : TxnId) : List TxnEnding → Prop
  | [] => ∀ v, l.view? id = some v → v.phase = .active
  | first :: rest => (∃ v, l.view? id = some v ∧ first.Shows v) ∧ ∀ e ∈ rest, e = first

variable {l : Ledger} {id : TxnId} {v : View} {first : TxnEnding}

theorem view?_of_find? {e : Entry} (h : l.find? id = some e) : l.view? id = some e.view :=
  congrArg (Option.map Entry.view) h

/-- **What the table makes of a request to end a transaction that has ended.** -/
theorem decide_request_of_shows (hview : l.view? id = some v) (hshows : first.Shows v) (now : Millis)
    (e : TxnEnding) :
    l.decide now (e.request id) =
      if e = first then .ok none
      else .error (.invalidTransition id v.phase (e.apply v).phase) := by
  obtain ⟨entry, hfind, rfl⟩ := Option.map_eq_some_iff.1 hview
  have hget : l.get id = .ok entry := get_eq_ok_iff.2 hfind
  cases first with
  | commit ts =>
      obtain ⟨hphase, hcommit⟩ := hshows
      cases e with
      | commit ts' =>
          simp only [TxnEnding.request, decide, hget, bind, Except.bind, decideCommit, hphase, hcommit,
            TxnEnding.apply, TxnEnding.commit.injEq, Option.some.injEq, eq_comm]
      | rollback =>
          simp [TxnEnding.request, decide, hget, bind, Except.bind, decideRollback, hphase, TxnEnding.apply]
  | rollback =>
      have hphase : entry.view.phase = .rolledBack := hshows
      cases e with
      | commit ts' =>
          simp [TxnEnding.request, decide, hget, bind, Except.bind, decideCommit, hphase, TxnEnding.apply]
      | rollback =>
          simp [TxnEnding.request, decide, hget, bind, Except.bind, decideRollback, hphase]

/-- A request to end an active transaction is never already fulfilled. -/
theorem decide_request_ne_none (hactive : ∀ v, l.view? id = some v → v.phase = .active) (now : Millis)
    (e : TxnEnding) : l.decide now (e.request id) ≠ .ok none := by
  intro h
  cases hget : l.get id with
  | error err => cases e <;> simp [TxnEnding.request, decide, hget, bind, Except.bind] at h
  | ok entry =>
      have hphase := hactive entry.view (view?_of_find? (get_eq_ok_iff.1 hget))
      cases e with
      | commit ts =>
          simp only [TxnEnding.request, decide, hget, bind, Except.bind, decideCommit, hphase] at h
          split at h <;> simp at h
      | rollback => simp [TxnEnding.request, decide, hget, bind, Except.bind, decideRollback, hphase] at h

end Ledger

namespace Store

/-- **What a call does to the records**: it succeeds and leaves one new record; or it asks for nothing
new; or it fails. -/
theorem view_cases (s : Store) (c : Call) :
    (∃ e, (s.call c).1 = .ok true ∧
        Change.Accepted c.now c.change (s.ledger.find? c.change.txn) e ∧
        ∀ id, (s.call c).2.ledger.view? id =
          if c.change.txn = id then some e.view else s.ledger.view? id) ∨
      (s.ledger.decide c.now c.change = .ok none ∧ (s.call c).1 = .ok false ∧
        (s.call c).2.ledger = s.ledger) ∨
      ((∃ err, (s.call c).1 = .error err) ∧ (s.call c).2.ledger = s.ledger) := by
  unfold call submit
  dsimp only
  cases hdecide : s.ledger.decide c.now c.change with
  | error err => exact .inr (.inr ⟨⟨err, rfl⟩, rfl⟩)
  | ok decision =>
      cases decision with
      | none => exact .inr (.inl ⟨rfl, rfl, rfl⟩)
      | some r =>
          obtain ⟨e, l', haccepted, happly, hfind⟩ := Ledger.apply_of_decide hdecide
          dsimp only [commitRecord]
          generalize Log.append _ r = appended
          obtain ⟨answer, log⟩ := appended
          cases answer with
          | error err => exact .inr (.inr ⟨⟨err, rfl⟩, rfl⟩)
          | ok offset =>
              simp only [happly]
              refine .inl ⟨e, trivial, haccepted, fun id => ?_⟩
              rw [Ledger.view?, hfind]
              split <;> rfl

/-- A request that the table refuses. -/
theorem call_of_error {s : Store} {c : Call} {err : TxnError}
    (h : s.ledger.decide c.now c.change = .error err) :
    (s.call c).1 = .error err ∧ (s.call c).2.ledger = s.ledger ∧
      (s.call c).2.log.device.bytes = s.log.device.bytes := by
  unfold call submit
  rw [h]
  exact ⟨rfl, rfl, rfl⟩

/-- A request that is already fulfilled. -/
theorem call_of_none {s : Store} {c : Call} (h : s.ledger.decide c.now c.change = .ok none) :
    (s.call c).1 = .ok false ∧ (s.call c).2.ledger = s.ledger ∧
      (s.call c).2.log.device.bytes = s.log.device.bytes := by
  unfold call submit
  rw [h]
  exact ⟨rfl, rfl, rfl⟩

variable {s : Store} {c : Call} {id : TxnId} {v : View}

/-- **One call** keeps all records coherent. -/
theorem coherent_call (h : s.ledger.Coherent) (c : Call) : (s.call c).2.ledger.Coherent := by
  rcases s.view_cases c with ⟨e, -, haccepted, hviews⟩ | ⟨-, -, hsame⟩ | ⟨-, hsame⟩
  · intro id v hv
    rw [hviews] at hv
    split at hv
    · cases hv
      exact haccepted.coherent fun e he => h _ _ (Ledger.view?_of_find? he)
    · exact h id v hv
  · rwa [hsame]
  · rwa [hsame]

/-- **One call** develops every record. -/
theorem develops_call (h : s.ledger.Coherent) (hv : s.ledger.view? id = some v) (c : Call) :
    ∃ v', (s.call c).2.ledger.view? id = some v' ∧ v.Develops v' := by
  rcases s.view_cases c with ⟨e, -, haccepted, hviews⟩ | ⟨-, -, hsame⟩ | ⟨-, hsame⟩
  · rw [hviews]
    split
    · rename_i htxn
      subst htxn
      have hcoherent := h _ _ hv
      obtain ⟨old, hold, rfl⟩ := Option.map_eq_some_iff.1 hv
      rw [hold] at haccepted
      exact ⟨e.view, rfl, haccepted.develops hcoherent⟩
    · exact ⟨v, hv, .refl v⟩
  · exact ⟨v, by rw [hsame, hv], .refl v⟩
  · exact ⟨v, by rw [hsame, hv], .refl v⟩

theorem coherent_runCalls (h : s.ledger.Coherent) (calls : List Call) :
    (s.runCalls calls).ledger.Coherent := by
  induction calls generalizing s with
  | nil => exact h
  | cons c rest ih => exact ih (coherent_call h c)

theorem develops_runCalls (h : s.ledger.Coherent) (hv : s.ledger.view? id = some v)
    (calls : List Call) :
    ∃ v', (s.runCalls calls).ledger.view? id = some v' ∧ v.Develops v' := by
  induction calls generalizing s v with
  | nil => exact ⟨v, hv, .refl v⟩
  | cons c rest ih =>
      obtain ⟨u, hu, hdevelops⟩ := develops_call h hv c
      obtain ⟨v', hv', hdevelops'⟩ := ih (coherent_call h c) hu
      exact ⟨v', hv', hdevelops.trans hdevelops'⟩

/-- A record goes back to a call that has recorded its transaction. -/
def Creates (s : Store) (calls : List Call) (id : TxnId) (v : View) : Prop :=
  ∃ before now faults view after, calls = before ++ ⟨now, faults, .begin view⟩ :: after ∧
    view.id = id ∧ ((s.runCalls before).call ⟨now, faults, .begin view⟩).1 = .ok true ∧
    View.Develops { view with globalCommit := none } v

/-- **Every record that a run leaves** was there before, or goes back to a call of the run. -/
theorem creates_runCalls (h : s.ledger.Coherent) {calls : List Call}
    (hv : (s.runCalls calls).ledger.view? id = some v) :
    (∃ u, s.ledger.view? id = some u) ∨ s.Creates calls id v := by
  induction calls generalizing s with
  | nil => exact .inl ⟨v, hv⟩
  | cons c rest ih =>
      rcases ih (coherent_call h c) hv with ⟨u, hu⟩ | ⟨before, now, faults, view, after, rfl, hrest⟩
      · rcases s.view_cases c with ⟨e, hok, haccepted, hviews⟩ | ⟨-, -, hsame⟩ | ⟨-, hsame⟩
        · rw [hviews] at hu
          split at hu
          · rename_i htxn
            subst htxn
            cases hold : s.ledger.find? c.change.txn with
            | some old => exact .inl ⟨old.view, Ledger.view?_of_find? hold⟩
            | none =>
                -- Nothing was recorded for the transaction, so this is the call that records it.
                rw [hold] at haccepted
                obtain ⟨view, hbegin, hview⟩ := haccepted.begin_of_none
                have hu' : (s.call c).2.ledger.view? c.change.txn = some e.view := by
                  rw [hviews, if_pos rfl]
                obtain ⟨v', hv', hdevelops⟩ := develops_runCalls (coherent_call h c) hu' rest
                cases hv.symm.trans hv'
                obtain ⟨now, faults, change⟩ := c
                obtain rfl : change = .begin view := hbegin
                exact .inr ⟨[], now, faults, view, rest, rfl, rfl, hok, hview ▸ hdevelops⟩
          · exact .inl ⟨u, hu⟩
        · exact .inl ⟨u, by rw [← hsame, hu]⟩
        · exact .inl ⟨u, by rw [← hsame, hu]⟩
      · exact .inr ⟨c :: before, now, faults, view, after, rfl, hrest⟩

/-- The ending that a call is granted for a transaction: the one that it asks for, if it succeeds. -/
def grants (s : Store) (id : TxnId) (c : Call) : Option TxnEnding :=
  match (s.call c).1 with
  | .ok _ => c.change.ending? id
  | .error _ => none

/-- The endings that a list of calls is granted for a transaction, in order. -/
def granted (s : Store) (id : TxnId) : List Call → List TxnEnding
  | [] => []
  | c :: rest => (s.grants id c).toList ++ (s.call c).2.granted id rest

theorem grants_eq_some {e : TxnEnding} :
    s.grants id c = some e ↔ c.change = e.request id ∧ ∃ changed, (s.call c).1 = .ok changed := by
  unfold grants
  cases (s.call c).1 with
  | ok changed => simp [Change.ending?_eq_some]
  | error err => simp

/-- A transaction that has ended is granted that ending only. -/
theorem eq_of_grants {first e : TxnEnding} (hv : s.ledger.view? id = some v) (hshows : first.Shows v)
    (h : s.grants id c = some e) : e = first := by
  obtain ⟨hrequest, changed, hok⟩ := grants_eq_some.1 h
  by_cases heq : e = first
  · exact heq
  · have hdecide := Ledger.decide_request_of_shows hv hshows c.now e
    rw [if_neg heq, ← hrequest] at hdecide
    rw [(call_of_error hdecide).1] at hok
    contradiction

/-- The first ending that a transaction is granted has its effect. -/
theorem follows_grants (hpast : s.ledger.Follows id []) (c : Call) :
    (s.call c).2.ledger.Follows id (s.grants id c).toList := by
  rcases s.view_cases c with ⟨e, hok, haccepted, hviews⟩ | ⟨hnone, -, hsame⟩ | ⟨⟨err, hfails⟩, hsame⟩
  · rw [show s.grants id c = c.change.ending? id by simp [grants, hok]]
    cases hending : c.change.ending? id with
    | none =>
        intro v hv
        rw [hviews] at hv
        split at hv
        · rename_i htxn
          subst htxn
          cases hv
          exact haccepted.stays_active hending fun e he => hpast _ (Ledger.view?_of_find? he)
        · exact hpast v hv
    | some ending =>
        have htxn : c.change.txn = id := by
          rw [Change.ending?_eq_some.1 hending]
          cases ending <;> rfl
        subst htxn
        obtain ⟨old, -, hview⟩ := haccepted.ended hending
        refine ⟨⟨e.view, by rw [hviews, if_pos rfl], ?_⟩, by simp⟩
        rw [hview]
        exact ending.shows_apply old.view
  · have hgrants : s.grants id c = none := by
      rw [Option.eq_none_iff_forall_ne_some]
      intro e he
      rw [(grants_eq_some.1 he).1] at hnone
      exact Ledger.decide_request_ne_none hpast c.now e hnone
    rwa [hgrants, hsame]
  · rwa [show s.grants id c = none by simp [grants, hfails], hsame]

/-- **One call** keeps the record of a transaction in step with the endings that it was granted. -/
theorem follows_call {past : List TxnEnding} (h : s.ledger.Coherent)
    (hpast : s.ledger.Follows id past) (c : Call) :
    (s.call c).2.ledger.Follows id (past ++ (s.grants id c).toList) := by
  cases past with
  | nil => exact follows_grants hpast c
  | cons first rest =>
      obtain ⟨⟨v, hv, hshows⟩, hrest⟩ := hpast
      obtain ⟨v', hv', hdevelops⟩ := develops_call h hv c
      refine ⟨⟨v', hv', hdevelops.shows hshows⟩, fun e he => ?_⟩
      rcases List.mem_append.1 he with he | he
      · exact hrest e he
      · exact eq_of_grants hv hshows (Option.mem_toList.1 he)

theorem follows_runCalls {past : List TxnEnding} (h : s.ledger.Coherent)
    (hpast : s.ledger.Follows id past) (calls : List Call) :
    (s.runCalls calls).ledger.Follows id (past ++ s.granted id calls) := by
  induction calls generalizing s past with
  | nil => rwa [granted, List.append_nil]
  | cons c rest ih =>
      rw [granted, ← List.append_assoc]
      exact ih (coherent_call h c) (follows_call h hpast c)

/-- Nobody has ended a transaction: it is active, or not recorded.  The next request to end it that
succeeds has its effect, and one that fails has none. -/
structure Undecided (s : Store) (id : TxnId) : Prop where
  active : ∀ v, s.ledger.view? id = some v → v.phase = .active
  success : ∀ now faults (e : TxnEnding) changed,
    (s.call ⟨now, faults, e.request id⟩).1 = .ok changed →
      ∃ v, s.ledger.view? id = some v ∧
        (s.call ⟨now, faults, e.request id⟩).2.ledger.view? id = some (e.apply v)
  failure : ∀ now faults (e : TxnEnding) err,
    (s.call ⟨now, faults, e.request id⟩).1 = .error err →
      (s.call ⟨now, faults, e.request id⟩).2.ledger = s.ledger

/-- A transaction has ended for good: requests to end it so succeed, all other ones are violations of
the protocol, and none of them changes a record or the log. -/
structure Decided (s : Store) (id : TxnId) (first : TxnEnding) : Prop where
  shows : ∃ v, s.ledger.view? id = some v ∧ first.Shows v
  repeated : ∀ now faults, (s.call ⟨now, faults, first.request id⟩).1 = .ok false
  refused : ∀ now faults e, e ≠ first →
    ∃ err, (s.call ⟨now, faults, e.request id⟩).1 = .error err ∧ err.isProtocolViolation = true
  unchanged : ∀ now faults (e : TxnEnding),
    (s.call ⟨now, faults, e.request id⟩).2.ledger = s.ledger ∧
      (s.call ⟨now, faults, e.request id⟩).2.log.device.bytes = s.log.device.bytes

theorem undecided_of_active (hactive : ∀ v, s.ledger.view? id = some v → v.phase = .active) :
    s.Undecided id where
  active := hactive
  success now faults e changed hok := by
    let c : Call := ⟨now, faults, e.request id⟩
    have htxn : c.change.txn = id := by cases e <;> rfl
    rcases s.view_cases c with ⟨e', -, haccepted, hviews⟩ | ⟨hnone, -, -⟩ | ⟨⟨err, hfails⟩, -⟩
    · have hending : c.change.ending? c.change.txn = some e := by
        rw [htxn]
        exact Change.ending?_eq_some.2 rfl
      obtain ⟨old, hold, hview⟩ := haccepted.ended hending
      rw [htxn] at hold
      refine ⟨old.view, Ledger.view?_of_find? hold, ?_⟩
      rw [hviews, if_pos htxn, hview]
    · exact absurd hnone (Ledger.decide_request_ne_none hactive now e)
    · cases hok.symm.trans hfails
  failure now faults e err hfails := by
    rcases s.view_cases ⟨now, faults, e.request id⟩ with ⟨e', hok, -, -⟩ | ⟨-, -, hsame⟩ | ⟨-, hsame⟩
    · cases hfails.symm.trans hok
    · exact hsame
    · exact hsame

theorem decided_of_shows {first : TxnEnding} (hv : s.ledger.view? id = some v) (hshows : first.Shows v) :
    s.Decided id first where
  shows := ⟨v, hv, hshows⟩
  repeated now faults := by
    have hdecide := Ledger.decide_request_of_shows hv hshows now first
    rw [if_pos rfl] at hdecide
    exact (call_of_none (c := ⟨now, faults, _⟩) hdecide).1
  refused now faults e hne := by
    have hdecide := Ledger.decide_request_of_shows hv hshows now e
    rw [if_neg hne] at hdecide
    exact ⟨_, (call_of_error (c := ⟨now, faults, _⟩) hdecide).1, rfl⟩
  unchanged now faults e := by
    have hdecide := Ledger.decide_request_of_shows hv hshows now e
    by_cases heq : e = first
    · rw [if_pos heq] at hdecide
      exact (call_of_none (c := ⟨now, faults, _⟩) hdecide).2
    · rw [if_neg heq] at hdecide
      exact (call_of_error (c := ⟨now, faults, _⟩) hdecide).2

/-- **The life of a transaction.**  Calls are made on an empty store, and its device may fail during any
of them.  After every run, the timestamps of each record fit its phase, the record goes back to the
call that has recorded its transaction, and whatever calls follow it develops: it keeps everything but
its phase and its timestamps of commits, it keeps the phase in which it has ended, and it keeps each
timestamp that is set.  A transaction for which the run was granted no ending is active or not
recorded, and the next request to end it that succeeds decides; otherwise the first ending granted has
decided, all others granted were the same, and any request to end the transaction again succeeds if it
asks for that ending, fails as a violation of the protocol if it does not, and changes neither records
nor log. -/
theorem lifecycle (config : StoreConfig) (past : List Call) (id : TxnId) :
    let s := (empty config).runCalls past
    (∀ v, s.ledger.view? id = some v →
      v.Coherent ∧ (empty config).Creates past id v ∧
        ∀ calls, ∃ v', (s.runCalls calls).ledger.view? id = some v' ∧ v.Develops v') ∧
      match (empty config).granted id past with
      | [] => s.Undecided id
      | first :: rest => s.Decided id first ∧ ∀ e ∈ rest, e = first := by
  intro s
  have hnone : ∀ other, (empty config).ledger.view? other = none := by
    intro other
    simp [empty, Ledger.view?, Ledger.find?]
  have hempty : (empty config).ledger.Coherent := fun other v hv => by simp [hnone] at hv
  have hcoherent : s.ledger.Coherent := coherent_runCalls hempty past
  refine ⟨fun v hv => ⟨hcoherent id v hv, ?_, develops_runCalls hcoherent hv⟩, ?_⟩
  · rcases creates_runCalls hempty hv with ⟨u, hu⟩ | hcreates
    · simp [hnone] at hu
    · exact hcreates
  · have hstart : (empty config).ledger.Follows id [] := fun v hv => by simp [hnone] at hv
    have hfollows := follows_runCalls hempty hstart past
    rw [List.nil_append] at hfollows
    cases hgranted : (empty config).granted id past with
    | nil =>
        rw [hgranted] at hfollows
        exact undecided_of_active hfollows
    | cons first rest =>
        rw [hgranted] at hfollows
        obtain ⟨⟨v, hv, hshows⟩, hrest⟩ := hfollows
        exact ⟨decided_of_shows hv hshows, hrest⟩

-- A commit that fails decides nothing; the rollback after it does.
example :
    (empty {}).granted ⟨1⟩
        [{ change := .begin { id := ⟨1⟩, begin := ⟨1⟩ } },
          { faults := { sync := true }, change := .commit ⟨1⟩ ⟨5⟩ },
          { change := .rollback ⟨1⟩ }, { change := .commit ⟨1⟩ ⟨5⟩ }, { change := .rollback ⟨1⟩ }] =
      [.rollback, .rollback] := by
  decide +kernel

end Store

end Multiversion
