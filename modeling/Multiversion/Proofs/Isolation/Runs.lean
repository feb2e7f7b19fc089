import Multiversion.Engine
import Multiversion.Proofs.Isolation.Batches
import Multiversion.Proofs.Visibility.HandOffs

/-!
# Runs of the engine

A run is a list of steps (`Step`), taken one after the other (`Engine.run`).  What a step does to the
store and to the cells is said once, so that invariants need not look at queues and outboxes:

* `TxnStore.Resolved` — background work on records: honest caching, and roll-backs of transactions that
  missed their deadline;
* `CellStore.Swept` — background work on cells: justified hand-offs;
* `Engine.Effect` — a step submits one change, or applies one batch, or does background work;
* `Engine.Tidier` — background work of an engine as a whole, its queue included.

Main statement: `Engine.effect_step` — every lawful step of a sound engine has one of these effects and
leaves a sound engine.
-/

namespace Multiversion

/-- A step of a run. -/
inductive Step where
  | begin (view : View)
  | commit (id : TxnId) (ts : Timestamp)
  | rollback (id : TxnId)
  | keepAlive (id : TxnId)
  | advance (span : Millis)
  | applyBatch (r : Region) (resolves : Bool) (txn : View) (batch : List Mutation)
  | get (reader : View) (key : Bytes)
  | scan (reader : View) (range : KeyRange)
  | resolve (request : Request)
  | settle
  | sweep (handOff : HandOff)

namespace Step

/-- The change of the transaction table that a step submits. -/
def change? : Step → Option Change
  | begin view => some (.begin view)
  | commit id ts => some (.commit id ts)
  | rollback id => some (.rollback id)
  | keepAlive id => some (.keepAlive id)
  | _ => none

/-- Whether a step is time, reads or background work: it neither submits a change nor writes. -/
def isQuiet : Step → Bool
  | begin _ | commit _ _ | rollback _ | keepAlive _ | applyBatch _ _ _ _ => false
  | advance _ | get _ _ | scan _ _ | resolve _ | settle | sweep _ => true

/-- What callers keep to: a batch carries the record of its transaction, and background work applies
no hand-off that the records do not bear out. -/
def Lawful (e : Engine) : Step → Prop
  | applyBatch _ _ txn _ => e.directory.find? txn.id = some txn
  | sweep handOff => handOff.Justified e.directory
  | _ => True

/-- Callers do not cache timestamps of roots themselves. -/
theorem honest_of_change {step : Step} {change : Change} (h : step.change? = some change)
    (d : Directory) : change.Honest d := by
  cases step <;> cases h <;> exact trivial

end Step

/-- A change that background work may make at this moment. -/
def Change.Tidying (d : Directory) : Change → Prop
  | .globalCommit id ts => (Change.globalCommit id ts).Honest d
  | .rollback id => d.isExpired id = true
  | _ => False

theorem Change.Tidying.cases {d : Directory} {change : Change} (h : change.Tidying d) :
    (∃ id ts, change = .globalCommit id ts) ∨ ∃ id, change = .rollback id := by
  cases change with
  | globalCommit id ts => exact .inl ⟨id, ts, rfl⟩
  | rollback id => exact .inr ⟨id, rfl⟩
  | begin => exact h.elim
  | commit => exact h.elim
  | keepAlive => exact h.elim

theorem Change.Tidying.honest {d : Directory} {change : Change} (h : change.Tidying d) :
    change.Honest d := by
  rcases h.cases with ⟨id, ts, rfl⟩ | ⟨id, rfl⟩
  · exact h
  · exact trivial

/-- Background work on the records of a store. -/
inductive TxnStore.Resolved (now : Millis) : TxnStore → TxnStore → Prop
  | refl (t : TxnStore) : Resolved now t t
  | submit {t t' : TxnStore} {change : Change} (htidying : change.Tidying (t.directory now))
      (hrest : Resolved now (t.submit now change).2 t') : Resolved now t t'

/-- Background work on cells. -/
inductive CellStore.Swept (d : Directory) : CellStore → CellStore → Prop
  | refl (cells : CellStore) : Swept d cells cells
  | apply {cells cells' : CellStore} {h : HandOff} (hjustified : h.Justified d)
      (hrest : Swept d (h.applyTo cells).2 cells') : Swept d cells cells'

namespace Engine

/-- One step of a run. -/
def step (e : Engine) : Step → Engine
  | .begin view => (e.submit (.begin view)).2
  | .commit id ts => (e.submit (.commit id ts)).2
  | .rollback id => (e.submit (.rollback id)).2
  | .keepAlive id => (e.submit (.keepAlive id)).2
  | .advance span => { e with clock := e.clock.advance span }
  | .applyBatch r resolves txn batch => (e.applyBatch r resolves txn batch).2
  | .get reader key => (e.get reader key).2.2
  | .scan reader range => (e.scan reader range).2.2
  | .resolve request => e.resolveNow request
  | .settle => e.settle
  | .sweep handOff => { e with cells := (handOff.applyTo e.cells).2 }

/-- The engine after a run. -/
def run (e : Engine) (steps : List Step) : Engine := steps.foldl step e

/-- Whether every step of a run is as required of it at the state in which it is taken. -/
def Admits (required : Engine → Step → Prop) : Engine → List Step → Prop
  | _, [] => True
  | e, step :: rest => required e step ∧ Admits required (e.step step) rest

/-- An engine on which nothing has happened yet. -/
structure IsFresh (e : Engine) : Prop where
  unrecorded : ∀ id, e.store.find? id = none
  unwritten : ∀ key, e.cells.versions key = []
  idle : e.sweeper.pending = []

/-- An engine whose records are in order and whose queue is justified. -/
structure Sound (e : Engine) : Prop where
  records : e.directory.Sound
  -- Queued hand-offs are justified.
  pending : ∀ h ∈ e.sweeper.pending, h.Justified e.directory

/-- What a step does to the store and to the cells. -/
inductive Effect (e : Engine) : Step → TxnStore → CellStore → Prop
  | change {step : Step} {change : Change} (hchange : step.change? = some change) :
      Effect e step (e.store.submit e.now change).2 e.cells
  | batch {r : Region} {resolves : Bool} {txn : View} {batch : List Mutation} :
      Effect e (.applyBatch r resolves txn batch) e.store
        (r.applyBatch e.directory txn e.cells batch).2.2
  | tidy {step : Step} {store : TxnStore} {cells : CellStore} (hquiet : step.isQuiet = true)
      (hresolved : e.store.Resolved e.now store)
      (hswept : e.cells.Swept (store.directory e.now) cells) : Effect e step store cells

/-- What background work leaves of an engine: later records, tidier cells, and hand-offs of one kind in
the queue. -/
structure Tidier (e : Engine) (P : Directory → HandOff → Prop) (e' : Engine) : Prop where
  resolved : e.store.Resolved e.now e'.store
  tidied : e.cells.Tidied (P (e'.store.directory e.now)) e'.cells
  pending : ∀ h ∈ e'.sweeper.pending, P e'.directory h

end Engine

namespace Request

/-- What background work asks for at a moment is work that it may do then. -/
theorem tidying_of_decide {d : Directory} {r : Request} {change : Change}
    (h : r.decide d = .ok (some change)) : change.Tidying d := by
  have hhonest := honest_of_decide h
  obtain ⟨kind, id⟩ := r
  cases kind with
  | globalCommit =>
      simp only [decide, decideGlobalCommit, bind, Except.bind] at h
      split at h
      · contradiction
      · split at h
        · cases h
        · split at h
          · contradiction
          · rename_i root hroot
            obtain ⟨c, -, rfl⟩ := Option.map_eq_some_iff.1 (Except.ok.inj h)
            exact hhonest
  | timedOut =>
      simp only [decide, decideTimedOut, bind, Except.bind] at h
      split at h
      · contradiction
      · split at h
        · rename_i hexpired
          cases h
          simp only [Bool.and_eq_true] at hexpired
          exact hexpired.2
        · cases h

theorem resolved_execute (r : Request) (t : TxnStore) (now : Millis) :
    t.Resolved now (r.execute t now).2 := by
  unfold execute
  split
  · exact .refl t
  · exact .refl t
  · rename_i change hdecide
    have hresolved : t.Resolved now (t.submit now change).2 :=
      .submit (tidying_of_decide hdecide) (.refl _)
    split
    · rename_i hsubmit
      rwa [hsubmit] at hresolved
    · rename_i hsubmit
      rwa [hsubmit] at hresolved

end Request

namespace TxnStore.Resolved

variable {now : Millis} {t t' t'' : TxnStore}

theorem trans (h : t.Resolved now t') (h' : t'.Resolved now t'') : t.Resolved now t'' := by
  induction h with
  | refl => exact h'
  | submit htidying _ ih => exact .submit htidying (ih h')

theorem later (h : t.Resolved now t') : (t.directory now).Later (t'.directory now) := by
  induction h with
  | refl => exact .refl _
  | submit _ _ ih => exact (TxnStore.later_submit _ _ _ _).trans ih

theorem sound (h : t.Resolved now t') (ht : (t.directory now).Sound) : (t'.directory now).Sound := by
  induction h with
  | refl => exact ht
  | submit htidying _ ih => exact ih (TxnStore.sound_submit ht htidying.honest now)

end TxnStore.Resolved

namespace Resolver

theorem resolved_runNext (v : Resolver) (t : TxnStore) (now : Millis) :
    t.Resolved now (v.runNext t now).2 := by
  unfold runNext
  dsimp only
  split
  · rename_i r _
    exact r.resolved_execute t now
  · exact .refl t

theorem resolved_runMany (v : Resolver) (t : TxnStore) (now : Millis) (n : Nat) :
    t.Resolved now (v.runMany t now n).2 := by
  induction n generalizing v t with
  | zero => exact .refl t
  | succ n ih =>
      exact (v.resolved_runNext t now).trans (ih _ _)

end Resolver

/-- Applying justified hand-offs is background work. -/
theorem CellStore.Tidied.swept {d : Directory} {P : HandOff → Prop} {cells cells' : CellStore}
    (h : cells.Tidied P cells') (hjustified : ∀ h, P h → h.Justified d) : cells.Swept d cells' := by
  induction h with
  | refl cells => exact .refl cells
  | apply hkind _ ih => exact .apply (hjustified _ hkind) ih

namespace Engine

variable {e : Engine}

theorem isFresh_of_empty (config : StoreConfig) (clock : Clock) (keepsTime : Bool)
    (resolver : Option Resolver) :
    IsFresh { store := .single (.empty config), clock, keepsTime, resolver } where
  unrecorded id := by simp [TxnStore.find?, TxnStore.partOf, Store.empty, Ledger.find?]
  unwritten key := by simp [CellStore.versions]
  idle := rfl

theorem IsFresh.sound (h : e.IsFresh) : e.Sound where
  records := by
    have hnone : ∀ id, e.directory.find? id = none := by
      intro id
      rw [directory, TxnStore.directory_find?, h.unrecorded]
      rfl
    exact ⟨by simp [hnone], by simp [hnone], by simp [hnone]⟩
  pending := by
    rw [h.idle]
    simp

theorem later_directory (t : TxnStore) (now now' : Millis) :
    (t.directory now).Later (t.directory now') :=
  .of_find?_eq (t.directory_find?_congr now now')

theorem sound_directory {t : TxnStore} {now : Millis} (h : (t.directory now).Sound) (now' : Millis) :
    (t.directory now').Sound :=
  h.congr (t.directory_find?_congr now now')

theorem sound_submit (he : e.Sound) {change : Change} (hhonest : change.Honest e.directory) :
    (e.submit change).2.Sound where
  records := TxnStore.sound_submit he.records hhonest e.now
  pending h hh := (he.pending h hh).later (e.store.later_submit e.now e.now change)

/-- Carrying out a request changes the store only, if there is a resolver. -/
theorem resolveNow_cases (e : Engine) (r : Request) :
    e.resolveNow r = e ∨
      ∃ v, e.resolveNow r = { e with resolver := v, store := (r.execute e.store e.now).2 } := by
  unfold resolveNow
  cases e.resolver with
  | none => exact .inl rfl
  | some v => exact .inr ⟨_, rfl⟩

/-- Settling does background work on the records, and then drains the sweeper. -/
theorem settle_cases (e : Engine) :
    ∃ t v, e.store.Resolved e.now t ∧
      e.settle = { e with store := t, resolver := v, sweeper := (e.sweeper.drain e.cells).1
                          cells := (e.sweeper.drain e.cells).2 } := by
  unfold settle
  cases hresolver : e.resolver with
  | none => exact ⟨e.store, e.resolver, .refl _, by simp [hresolver]⟩
  | some v => exact ⟨_, _, v.resolved_runMany e.store e.now v.queue.length, rfl⟩

theorem Tidier.refl {P : Directory → HandOff → Prop}
    (hpending : ∀ h ∈ e.sweeper.pending, P e.directory h) : e.Tidier P e :=
  ⟨.refl _, .refl _, hpending⟩

/-- What a read leaves behind is applied, or queued. -/
theorem tidier_post {P : Directory → HandOff → Prop} (hlasting : HandOff.Lasting P)
    (hpending : ∀ h ∈ e.sweeper.pending, P e.directory h) {outbox : Outbox}
    (houtbox : ∀ h ∈ outbox.handOffs, h.Due e.directory) : e.Tidier P (e.post outbox) := by
  obtain ⟨htidied, hrest⟩ := Sweeper.tidied_receiveAll hpending
    (fun h hh => hlasting.due (houtbox h hh)) e.cells
  exact ⟨.refl _, htidied, hrest⟩

/-- **What a quiet step can do**: background work, with hand-offs of one kind. -/
theorem tidier_step {P : Directory → HandOff → Prop} (hlasting : HandOff.Lasting P)
    (hd : e.directory.Sound) (hpending : ∀ h ∈ e.sweeper.pending, P e.directory h) {step : Step}
    (hquiet : step.isQuiet = true) (hsweep : ∀ h, step = .sweep h → P e.directory h) :
    e.Tidier P (e.step step) := by
  cases step with
  | begin => cases hquiet
  | commit => cases hquiet
  | rollback => cases hquiet
  | keepAlive => cases hquiet
  | applyBatch => cases hquiet
  | advance span =>
      exact ⟨.refl _, .refl _,
        fun h hh => hlasting.later (hpending h hh) (later_directory e.store _ _)⟩
  | get reader key =>
      exact tidier_post hlasting hpending (Read.due_get hd reader e.cells key)
  | scan reader range =>
      exact tidier_post hlasting hpending (Read.due_scan hd reader e.cells range)
  | resolve request =>
      have hresolved := request.resolved_execute e.store e.now
      rcases e.resolveNow_cases request with hsame | ⟨v, hnew⟩
      · rw [Engine.step, hsame]
        exact .refl hpending
      · rw [Engine.step, hnew]
        exact ⟨hresolved, .refl _, fun h hh => hlasting.later (hpending h hh) hresolved.later⟩
  | settle =>
      obtain ⟨t, v, hresolved, hsettle⟩ := e.settle_cases
      have hpending' : ∀ h ∈ e.sweeper.pending, P (t.directory e.now) h :=
        fun h hh => hlasting.later (hpending h hh) hresolved.later
      obtain ⟨htidied, hempty⟩ := Sweeper.tidied_drain hpending' e.cells
      rw [Engine.step, hsettle]
      refine ⟨hresolved, htidied, fun h hh => ?_⟩
      rw [hempty] at hh
      simp at hh
  | sweep handOff => exact ⟨.refl _, .apply (hsweep handOff rfl) (.refl _), hpending⟩

/-- **What a step can do.** -/
theorem effect_step (he : e.Sound) {step : Step} (hstep : step.Lawful e) :
    e.Effect step (e.step step).store (e.step step).cells ∧ (e.step step).Sound := by
  cases hquiet : step.isQuiet with
  | true =>
      obtain ⟨hresolved, htidied, hpending⟩ := tidier_step HandOff.lasting_justified he.records
        he.pending hquiet (by rintro h rfl; exact hstep)
      exact ⟨.tidy hquiet hresolved (htidied.swept fun _ hj => hj),
        sound_directory (hresolved.sound he.records) _, hpending⟩
  | false =>
      cases step with
      | begin view => exact ⟨.change rfl, sound_submit he trivial⟩
      | commit id ts => exact ⟨.change rfl, sound_submit he trivial⟩
      | rollback id => exact ⟨.change rfl, sound_submit he trivial⟩
      | keepAlive id => exact ⟨.change rfl, sound_submit he trivial⟩
      | applyBatch r resolves txn batch =>
          cases resolves with
          | false => exact ⟨.batch, he.records, he.pending⟩
          | true => exact ⟨.batch, he.records, he.pending⟩
      | advance => cases hquiet
      | get => cases hquiet
      | scan => cases hquiet
      | resolve => cases hquiet
      | settle => cases hquiet
      | sweep => cases hquiet

theorem later_step (he : e.Sound) {step : Step} (hstep : step.Lawful e) :
    e.directory.Later (e.step step).directory := by
  obtain ⟨heffect, -⟩ := effect_step he hstep
  unfold directory
  generalize (e.step step).now = now'
  generalize (e.step step).store = store' at heffect ⊢
  generalize (e.step step).cells = cells' at heffect
  cases heffect with
  | change => exact e.store.later_submit e.now now' _
  | batch => exact later_directory e.store e.now now'
  | tidy _ hresolved => exact hresolved.later.trans (later_directory _ _ _)

theorem Admits.mono {required required' : Engine → Step → Prop} {steps : List Step}
    (h : e.Admits required steps) (hrelax : ∀ {e step}, required e step → required' e step) :
    e.Admits required' steps := by
  induction steps generalizing e with
  | nil => exact trivial
  | cons step rest ih => exact ⟨hrelax h.1, ih h.2⟩

theorem later_run (he : e.Sound) {steps : List Step} (h : e.Admits Step.Lawful steps) :
    e.directory.Later (e.run steps).directory := by
  induction steps generalizing e with
  | nil => exact .refl _
  | cons step rest ih =>
      exact (later_step he h.1).trans (ih (effect_step he h.1).2 h.2)

end Engine

end Multiversion
