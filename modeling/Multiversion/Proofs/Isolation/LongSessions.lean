import Multiversion.Proofs.Isolation.RootCommit
import Multiversion.Proofs.Lineage.FinalFates

/-!
# Long sessions

A session goes on for as long as it may: readers' views stay open, moves of any kind follow one another, and
the devices under the logs fail and recover.  Timestamps of roots are cached by background work only.  What
the records have once decided about a writer is what they say at any later time.

* `Session.Becomes` — one session comes to be another one;
* `Session.Steady` — a sound session in which what open views remember is confirmed by the records;
* `Session.HandedOver` — the hand-offs that readers leave, and those that are queued.

Main statement: `Session.fates_final` — fates that are decided at one moment of a session are confirmed at
every later one, remembered ones are confirmed now, and hand-offs stay due.
-/

namespace Multiversion

namespace TxnStore

/-- Background work loses nothing that was cached. -/
theorem Resolved.retains {now : Millis} {t t' : TxnStore} (h : t.Resolved now t') :
    (t.directory now).Retains (t'.directory now) := by
  induction h with
  | refl => exact .refl _
  | submit _ _ ih => exact (retains_submit _ _ _ _).trans ih

/-- Records do not depend on devices. -/
theorem find?_mapDevices (t : TxnStore) (change : Device → Device) (id : TxnId) :
    (t.mapDevices change).find? id = t.find? id := by
  cases t with
  | single s => rfl
  | partitioned p =>
      simp [mapDevices, mapParts, find?, partOf, PartitionedStore.partition, PartitionedStore.owner]

end TxnStore

namespace Visibility

variable {d : Directory}

theorem memory_load {reader : View} {v : Visibility} (h : load d reader = .ok v) (writer : TxnId) :
    v.memory[writer]? = none := by
  unfold load at h
  split at h
  · cases h
  · cases h
    simp

/-- Whatever a view remembers after it has examined a cell, it has remembered before or read off the
records just now. -/
theorem memory_fate (v : Visibility) (key : Bytes) (cell : Cell) :
    (v.fate d key cell).2.lineage = v.lineage ∧
      ∀ {writer : TxnId} {f : Fate}, (v.fate d key cell).2.memory[writer]? = some f →
        v.memory[writer]? = some f ∨ v.lineage.resolveWriter d writer = .ok f := by
  have hlearn : (v.learn d cell.writer).2.lineage = v.lineage ∧
      ∀ {writer : TxnId} {f : Fate}, (v.learn d cell.writer).2.memory[writer]? = some f →
        v.memory[writer]? = some f ∨ v.lineage.resolveWriter d writer = .ok f := by
    unfold learn
    split
    · exact ⟨rfl, .inl⟩
    · split
      · exact ⟨rfl, .inl⟩
      · rename_i fate hresolve
        refine ⟨rfl, fun {writer f} hf => ?_⟩
        rw [Std.ExtTreeMap.getElem?_insert] at hf
        split at hf
        · rename_i hsame
          cases hf
          rw [← Std.LawfulEqCmp.eq_of_compare hsame]
          exact .inr hresolve
        · exact .inl hf
  unfold fate
  split
  · exact ⟨rfl, .inl⟩
  · split <;> rename_i hlearnt <;> rw [hlearnt] at hlearn <;> exact hlearn

end Visibility

namespace Session

/-- The session after something has happened to the devices under its logs. -/
def disturb (s : Session) (change : Device → Device) : Session :=
  s.withEngine { s.engine with store := s.engine.store.mapDevices change }

/-- One session comes to be another one, by moves of any kind, while the devices under its logs fail and
recover. -/
inductive Becomes : Session → Session → Prop
  | refl (s : Session) : Becomes s s
  | move {s t : Session} (m : Move) (rest : Becomes (s.move m) t) : Becomes s t
  | disturb {s t : Session} (change : Device → Device) (rest : Becomes (s.disturb change) t) :
      Becomes s t

/-- A sound session in which what open views remember is confirmed by the records. -/
structure Steady (s : Session) : Prop where
  sound : s.Sound
  memory : ∀ v ∈ s.views, ∀ {writer : TxnId} {f : Fate}, v.memory[writer]? = some f →
    f.ConfirmedBy (v.lineage.resolveWriter s.directory writer)

/-- A hand-off that is queued, or that a reader leaves at this moment: an open view that examines a cell,
or a read or a scan with a view of its own. -/
inductive HandedOver (s : Session) : HandOff → Prop
  | pending {h : HandOff} (hmem : h ∈ s.engine.sweeper.pending) : HandedOver s h
  | look {v : Visibility} {key : Bytes} {cell : Cell} {h : HandOff} (hview : v ∈ s.views)
      (hmem : h ∈ (v.fate s.directory key cell).2.outbox.handOffs) : HandedOver s h
  | get {reader : View} {key : Bytes} {h : HandOff}
      (hmem : h ∈ (Read.get s.directory reader s.engine.cells key).2.handOffs) : HandedOver s h
  | scan {reader : View} {range : KeyRange} {h : HandOff}
      (hmem : h ∈ (Read.scan s.directory reader s.engine.cells range).2.handOffs) : HandedOver s h

variable {s t : Session}

theorem becomes_run (s : Session) (moves : List Move) : s.Becomes (s.run moves) := by
  induction moves generalizing s with
  | nil => exact .refl s
  | cons m rest ih => exact .move m (ih (s.move m))

theorem due_of_handedOver (hs : s.Sound) {h : HandOff} (hover : s.HandedOver h) : h.Due s.directory := by
  cases hover with
  | pending hmem => exact hs.pending h hmem
  | @look v key cell _ hview hmem =>
      exact (Visibility.reliable_fate hs.records (hs.views v hview) key cell).handOffs h hmem
  | @get reader key _ hmem => exact Read.due_get hs.records reader s.engine.cells key h hmem
  | @scan reader range _ hmem => exact Read.due_scan hs.records reader s.engine.cells range h hmem

theorem IsFresh.steady (h : s.IsFresh) : s.Steady where
  sound := h.sound
  memory := by
    rw [h.views]
    simp

/-- Whatever a move does to the store, nothing that was cached is lost. -/
theorem retains_of_effect {m : Move} {store : TxnStore} {cells : CellStore} (h : s.Effect m store cells)
    (now : Millis) : s.directory.Retains (store.directory now) := by
  have hsame : ∀ t : TxnStore, (t.directory s.engine.now).Retains (t.directory now) :=
    fun t => .of_find?_eq (t.directory_find?_congr s.engine.now now)
  cases h with
  | change => exact s.engine.store.retains_submit _ now _
  | batch | write | erase => exact hsame _
  | tidy _ hresolved => exact hresolved.retains.trans (hsame _)

/-- **Any move** leaves a sound session, and loses nothing that was cached. -/
theorem retains_move (hs : s.Sound) (m : Move) :
    (s.move m).Sound ∧ s.directory.Retains (s.move m).directory := by
  by_cases hm : m.Honest
  · obtain ⟨heffect, hsound, -⟩ := effect_move hs hm
    exact ⟨hsound, retains_of_effect heffect _⟩
  · -- The others change cells only.
    cases m with
    | step step =>
        cases step with
        | sweep => exact ⟨⟨hs.records, hs.pending, hs.views⟩, .refl _⟩
        | _ => exact absurd trivial hm
    | write => exact ⟨⟨hs.records, hs.pending, hs.views⟩, .refl _⟩
    | _ => exact absurd trivial hm

/-- The views that are open after a move. -/
theorem mem_views_move {m : Move} {v : Visibility} (hv : v ∈ (s.move m).views) :
    v ∈ s.views ∨ (∃ reader, Visibility.load s.directory reader = .ok v) ∨
      ∃ w ∈ s.views, ∃ key cell, v = (w.fate s.directory key cell).2.clearOutbox := by
  cases m with
  | enter reader =>
      simp only [move] at hv
      split at hv
      · exact .inl hv
      · rename_i w hload
        rcases List.mem_append.1 hv with hv | hv
        · exact .inl hv
        · rw [List.mem_singleton.1 hv]
          exact .inr (.inl ⟨reader, hload⟩)
  | look index key cell =>
      simp only [move] at hv
      split at hv
      · exact .inl hv
      · rename_i w hindex
        rcases List.mem_or_eq_of_mem_set hv with hv | rfl
        · exact .inl hv
        · exact .inr (.inr ⟨w, List.mem_of_getElem? hindex, key, cell, rfl⟩)
  | _ => exact .inl hv

/-- **Any move** leaves what open views remember confirmed. -/
theorem steady_move (hs : s.Steady) (m : Move) : (s.move m).Steady := by
  obtain ⟨hsound, hretains⟩ := retains_move hs.sound m
  refine ⟨hsound, fun v hv {writer f} hf => ?_⟩
  have hconfirmed : f.ConfirmedBy (v.lineage.resolveWriter s.directory writer) := by
    rcases mem_views_move hv with hold | ⟨reader, hload⟩ | ⟨w, hw, key, cell, rfl⟩
    · exact hs.memory v hold hf
    · rw [Visibility.memory_load hload] at hf
      cases hf
    · obtain ⟨hlineage, hmemory⟩ := w.memory_fate (d := s.directory) key cell
      show f.ConfirmedBy ((w.fate s.directory key cell).2.lineage.resolveWriter s.directory writer)
      rw [hlineage]
      rcases hmemory hf with hold | hresolve
      · exact hs.memory w hw hold
      · exact Lineage.confirmed_of_resolveWriter hs.sound.records hs.sound.records (.refl _) hresolve
  exact Lineage.confirmed_of_confirmed hs.sound.records hsound.records hretains hconfirmed

/-- Devices that fail or recover change no record. -/
theorem steady_disturb (hs : s.Steady) (change : Device → Device) :
    (s.disturb change).Steady ∧ s.directory.Retains (s.disturb change).directory := by
  have hsame : ∀ id, (s.disturb change).directory.find? id = s.directory.find? id := by
    intro id
    rw [directory, directory, Engine.directory, Engine.directory, TxnStore.directory_find?,
      TxnStore.directory_find?]
    exact congrArg (Option.map Entry.view) (s.engine.store.find?_mapDevices change id)
  have hretains : s.directory.Retains (s.disturb change).directory := .of_find?_eq hsame
  have hrecords := hs.sound.records.congr hsame
  refine ⟨⟨⟨hrecords, fun h hh => (hs.sound.pending h hh).later hretains.later,
    fun v hv => (hs.sound.views v hv).later hretains.later⟩, fun v hv {writer f} hf => ?_⟩, hretains⟩
  exact Lineage.confirmed_of_confirmed hs.sound.records hrecords hretains (hs.memory v hv hf)

/-- **A session that goes on** stays steady, and loses nothing that was cached. -/
theorem steady_of_becomes (hs : s.Steady) (h : s.Becomes t) :
    t.Steady ∧ s.directory.Retains t.directory := by
  induction h with
  | refl => exact ⟨hs, .refl _⟩
  | move m _ ih =>
      obtain ⟨hend, hretains⟩ := ih (steady_move hs m)
      exact ⟨hend, (retains_move hs.sound m).2.trans hretains⟩
  | disturb change _ ih =>
      obtain ⟨hsteady, hkept⟩ := steady_disturb hs change
      obtain ⟨hend, hretains⟩ := ih hsteady
      exact ⟨hend, hkept.trans hretains⟩

/-- **Decided fates are final.**  A session starts with nothing, comes to one moment and to a later one.
What any lineage found of any writer at the first moment, it finds at the second one too, if it was rolled
back or committed, with the same timestamp.  What open views remember of decided writers is what the records
say now.  And what readers handed over at the first moment, or had handed over before, is still due. -/
theorem fates_final {a b : Session} (hs : s.IsFresh) (hsa : s.Becomes a) (hab : a.Becomes b) :
    (∀ (l : Lineage) (writer : TxnId) (f : Fate), l.resolveWriter a.directory writer = .ok f →
        f.ConfirmedBy (l.resolveWriter b.directory writer)) ∧
      (∀ v ∈ b.views, ∀ (writer : TxnId) (f : Fate), v.memory[writer]? = some f →
        f.ConfirmedBy (v.lineage.resolveWriter b.directory writer)) ∧
      ∀ h, a.HandedOver h → h.Due b.directory := by
  obtain ⟨ha, -⟩ := steady_of_becomes hs.steady hsa
  obtain ⟨hb, hretains⟩ := steady_of_becomes ha hab
  refine ⟨fun l writer f h => ?_, fun v hv writer f hf => hb.memory v hv hf, fun h hover => ?_⟩
  · exact Lineage.confirmed_of_resolveWriter ha.sound.records hb.sound.records hretains h
  · exact (due_of_handedOver ha.sound hover).later hretains.later

end Session

namespace CachedLater

/-- The child writes and commits before its parent, and a reader that stays open walks up to the root. -/
def before : List Move :=
  [.step (.begin { id := ⟨1⟩, begin := ⟨1⟩ }), .step (.begin CachedRoot.child),
    .step (.applyBatch { name := "r" } false CachedRoot.child
      [{ kind := .upsert, key := [1], value := [9] }]),
    .step (.commit ⟨2⟩ ⟨3⟩), .step (.commit ⟨1⟩ ⟨4⟩), .step (.begin CachedRoot.reader),
    .enter CachedRoot.reader, .look 0 [1] { timestamp := ⟨2⟩, writer := ⟨2⟩, value := some [9] }]

/-- The reader's request is carried out, so the root's timestamp is cached on the child. -/
def after : List Move := [.resolveNext]

/-- The session when the reader has looked. -/
def early : Session := CachedRoot.session.run before

/-- The session when the timestamp is cached. -/
def late : Session := early.run after

end CachedLater

/-- A reader has found its way to a committed root.  When the root's timestamp is cached below, the walk is
shorter, and what the reader remembers is still right. -/
theorem fates_final_cachedLater :
    (Lineage.ofRoot CachedRoot.reader).resolveWriter CachedLater.early.directory ⟨2⟩ =
        .ok (.committed ⟨4⟩ true) ∧
      (Lineage.ofRoot CachedRoot.reader).resolveWriter CachedLater.late.directory ⟨2⟩ =
        .ok (.committed ⟨4⟩ false) ∧
      (∃ viaParents, (Lineage.ofRoot CachedRoot.reader).resolveWriter CachedLater.late.directory ⟨2⟩ =
        .ok (.committed ⟨4⟩ viaParents)) ∧
      (∀ v ∈ CachedLater.late.views, ∀ (writer : TxnId) (f : Fate), v.memory[writer]? = some f →
        f.ConfirmedBy (v.lineage.resolveWriter CachedLater.late.directory writer)) := by
  have hearly : (Lineage.ofRoot CachedRoot.reader).resolveWriter CachedLater.early.directory ⟨2⟩ =
      .ok (.committed ⟨4⟩ true) := by
    decide +kernel
  obtain ⟨hfates, hmemory, -⟩ := Session.fates_final CachedRoot.isFresh_session
    (Session.becomes_run _ CachedLater.before) (Session.becomes_run _ CachedLater.after)
  exact ⟨hearly, by decide +kernel, hfates _ _ _ hearly, hmemory⟩

end Multiversion
