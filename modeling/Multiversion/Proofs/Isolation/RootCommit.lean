import Multiversion.Proofs.Isolation.Sessions
import Multiversion.Proofs.Lineage.Rising

/-!
# Nested transactions, seen from outside

To a reader outside its family, the work of a nested transaction is committed at the moment at which its
root is, and not before everything between the two has committed.  A reader may learn this from three
places: the parent links, a timestamp cached on a record of the lineage, and one cached on the cell
itself.  As long as timestamps are cached by resolver and sweeper only, the three agree.

`CellStore.Rooted` says that the timestamps cached on cells are those of the writers' roots.

Main statement: `Session.caches_agree` — after every honest session, whatever is cached is the
timestamp of the root, and outsiders see a version exactly if the root committed in time.
-/

namespace Multiversion

/-- On a sound table the effective commit timestamp of a record is that of its root. -/
theorem Directory.Sound.committedAt_effectiveCommit {d : Directory} (hd : d.Sound) {id : TxnId}
    {v : View} (hv : d.find? id = some v) {ts : Timestamp} (hts : v.effectiveCommit = some ts) :
    CommittedAt d id ts := by
  unfold View.effectiveCommit at hts
  split at hts
  · rename_i hphase
    split at hts
    · rename_i hroot
      exact ⟨v, [], hv, .root hroot, by simp [rootCommit, hphase, hts]⟩
    · obtain ⟨us, hpath, hroot⟩ := hd.cached hv hts
      exact ⟨v, us, hv, hpath, hroot⟩
  · cases hts

/-- Cells on which only timestamps of the writers' roots are cached. -/
def CellStore.Rooted (d : Directory) (cells : CellStore) : Prop :=
  ∀ key, ∀ c ∈ cells.versions key, ∀ ts, c.commit = some ts → CommittedAt d c.writer ts

namespace CellStore.Rooted

variable {d d' : Directory} {cells : CellStore}

theorem later (h : cells.Rooted d) (hlater : d.Later d') : cells.Rooted d' :=
  fun key c hc ts hts => (h key c hc ts hts).later hlater

/-- A version that carries no timestamp may be written by anyone. -/
theorem put (h : cells.Rooted d) (key : Bytes) {c : Cell} (hc : c.commit = none) :
    (cells.put key c).Rooted d := by
  intro other x hx ts hts
  rw [versions_put] at hx
  split at hx
  · rcases Cell.mem_replace.1 hx with rfl | ⟨hx, -⟩
    · simp [hc] at hts
    · exact h other x hx ts hts
  · exact h other x hx ts hts

theorem erase (h : cells.Rooted d) (key : Bytes) (writer : TxnId) :
    (cells.removeVersion key writer).2.Rooted d := by
  intro other x hx ts hts
  rw [versions_removeVersion] at hx
  split at hx
  · exact h other x (List.mem_of_mem_filter hx) ts hts
  · exact h other x hx ts hts

theorem applyTo (h : cells.Rooted d) {handOff : HandOff} (hdue : handOff.Due d) :
    (handOff.applyTo cells).2.Rooted d := by
  cases handOff with
  | rolledBack key writer => exact h.erase key writer
  | committed key writer commit =>
      intro other x hx ts hts
      rw [HandOff.applyTo, versions_setCommit] at hx
      split at hx
      · rcases Cell.mem_markCommitted hx with hx | ⟨c, -, rfl, rfl⟩
        · exact h other x hx ts hts
        · cases hts
          exact hdue
      · exact h other x hx ts hts

theorem tidied (h : cells.Rooted d) {cells' : CellStore}
    (htidied : cells.Tidied (HandOff.Due d) cells') : cells'.Rooted d := by
  induction htidied with
  | refl => exact h
  | apply hdue _ ih => exact ih (h.applyTo hdue)

/-- A batch writes versions without timestamps. -/
theorem applied (h : cells.Rooted d) {txn : View} {l : Lineage} {cells' : CellStore}
    {batch : List Mutation} {statuses : List Status}
    (happlied : Region.Applied d txn l cells batch statuses cells') : cells'.Rooted d := by
  induction happlied with
  | nil => exact h
  | skip _ _ ih => exact ih h
  | @put _ _ m _ _ _ _ _ _ ih => exact ih (h.put m.key rfl)

end CellStore.Rooted

namespace Session

variable {s : Session}

/-- **An honest move keeps the cached timestamps those of the roots.** -/
theorem rooted_move (hs : s.Sound) (hcells : s.engine.cells.Rooted s.directory) {m : Move}
    (hm : m.Honest) : (s.move m).engine.cells.Rooted (s.move m).directory := by
  obtain ⟨heffect, -, hlater⟩ := effect_move hs hm
  have hkept : ∀ {cells : CellStore}, cells.Rooted s.directory →
      cells.Rooted (s.move m).directory := fun h => h.later hlater
  generalize hstore : (s.move m).engine.store = store' at heffect
  generalize (s.move m).engine.cells = cells' at heffect
  cases heffect with
  | change => exact hkept hcells
  | @batch r resolves txn batch =>
      refine hkept ?_
      rcases r.applyBatch_cases hs.records txn s.engine.cells batch with
        ⟨hsame, -⟩ | ⟨w, l, -, -, -, happlied⟩
      · rw [hsame]
        exact hcells
      · exact hcells.applied happlied
  | tidy _ hresolved htidied =>
      have htidy := (hcells.later hresolved.later).tidied htidied
      refine htidy.later ?_
      show Directory.Later _ ((s.move m).engine.store.directory _)
      rw [hstore]
      exact Engine.later_directory store' _ _
  | write hplain => exact hkept (hcells.put _ hplain)
  | erase => exact hkept (hcells.erase _ _)

theorem rooted_run (hs : s.Sound) (hcells : s.engine.cells.Rooted s.directory) {moves : List Move}
    (hmoves : ∀ m ∈ moves, m.Honest) : (s.run moves).engine.cells.Rooted (s.run moves).directory := by
  induction moves generalizing s with
  | nil => exact hcells
  | cons m rest ih =>
      have hm := hmoves m List.mem_cons_self
      exact ih (effect_move hs hm).2.1 (rooted_move hs hcells hm)
        fun x hx => hmoves x (List.mem_cons_of_mem _ hx)

end Session

namespace Visibility

variable {d : Directory} {reader : View} {v : Visibility} {c : Cell}

/-- What a reader outside the writer's family learns of a writer. -/
theorem visible_iff_of_holds (hd : d.Sound) (hisolation : reader.isolation = .snapshotIsolation)
    {l : Lineage} (houtside : ∀ a, l.contains a = true → ¬ Ascends d c.writer a) {f : Fate}
    (hf : f.Holds d l c.writer) :
    f.isVisibleTo reader = true ↔ ∃ ts, CommittedAt d c.writer ts ∧ ts ≤ reader.begin := by
  have hcommitted : ∀ {a : TxnId} {w : View}, (∃ ts, CommittedAt d c.writer ts ∧ ts ≤ reader.begin) →
      Ascends d c.writer a → d.find? a = some w → w.phase = .committed :=
    fun ⟨_, hts, _⟩ ha hw => hts.committed_of_ascends hd ha hw
  cases f with
  | own =>
      obtain ⟨a, ha, hascends⟩ := hf
      exact absurd hascends (houtside a ha)
  | committedInto a ts => exact absurd hf.2 (houtside a hf.1)
  | committed ts via =>
      have hts : CommittedAt d c.writer ts := hf
      simp only [Fate.isVisibleTo, hisolation, ne_eq, not_true_eq_false, decide_false,
        Bool.false_or, decide_eq_true_eq]
      exact ⟨fun hle => ⟨ts, hts, hle⟩, fun ⟨_, hts', hle⟩ => hts.unique hts' ▸ hle⟩
  | active a expired =>
      obtain ⟨w, hascends, hw, hactive⟩ := hf
      constructor
      · simp [Fate.isVisibleTo, hisolation]
      · intro h
        simp [hcommitted h hascends hw] at hactive
  | rolledBack =>
      obtain ⟨a, w, hascends, hw, hrolled⟩ := hf
      constructor
      · simp [Fate.isVisibleTo]
      · intro h
        simp [hcommitted h hascends hw] at hrolled

/-- **Outsiders see a version exactly if the writer's root committed in time.** -/
theorem isVisible_iff (hd : d.Sound) (hisolation : reader.isolation = .snapshotIsolation)
    (hload : load d reader = .ok v) (houtside : ∀ a, v.lineage.contains a = true →
      ¬ Ascends d c.writer a) (hcached : ∀ ts, c.commit = some ts → CommittedAt d c.writer ts)
    {key : Bytes} {b : Bool} (hb : (v.isVisible d key c).1 = .ok b) :
    b = true ↔ ∃ ts, CommittedAt d c.writer ts ∧ ts ≤ reader.begin := by
  obtain ⟨hlineage, hfaithful⟩ := faithful_load hload
  obtain ⟨hview, -⟩ := Lineage.path_of_load hlineage
  obtain ⟨hanswer, -, hsame⟩ := fate_spec hd hfaithful key c
  -- Wherever the fate comes from, it holds.
  have hholds : ∀ f, v.lineage.fateOf d c = .ok f → f.Holds d v.lineage c.writer := by
    intro f hf
    unfold Lineage.fateOf at hf
    rw [if_neg fun hown => houtside _ hown (.refl _)] at hf
    cases hcommit : c.commit with
    | some ts =>
        rw [hcommit] at hf
        cases hf
        exact hcached ts hcommit
    | none =>
        rw [hcommit] at hf
        exact Lineage.holds_of_resolveWriter hd hf
  unfold isVisible at hb
  cases hfate : v.fate d key c with
  | mk answer v' =>
      rw [hfate] at hb hanswer hsame
      cases answer with
      | error e => cases hb
      | ok f =>
          cases hb
          rw [show v'.reader = reader from (congrArg Lineage.view hsame).trans hview]
          exact visible_iff_of_holds hd hisolation houtside (hholds f hanswer.symm)

end Visibility

/-- **A nested transaction is seen from outside exactly at the commit of its root, whatever has been
cached.**  After any honest session: a timestamp cached on a record or on a cell is that of the root of
a committed path, and so is the effective commit timestamp; and a view that a reader under snapshot
isolation loads, outside the writer's family, shows a version exactly if everything from the writer to
the root has committed, the root not after the reader's begin. -/
theorem Session.caches_agree {s : Session} (hs : s.IsFresh) {moves : List Move}
    (hmoves : ∀ m ∈ moves, m.Honest) :
    (∀ {id : TxnId} {v : View} {ts : Timestamp}, (s.run moves).directory.find? id = some v →
        v.globalCommit = some ts → CommittedAt (s.run moves).directory id ts) ∧
      (∀ {key : Bytes} {c : Cell} {ts : Timestamp}, c ∈ (s.run moves).engine.cells.versions key →
        c.commit = some ts → CommittedAt (s.run moves).directory c.writer ts) ∧
      (∀ {reader : View} {v : Visibility} {key : Bytes} {c : Cell} {b : Bool},
        reader.isolation = .snapshotIsolation →
        Visibility.load (s.run moves).directory reader = .ok v →
        c.commit = none ∨ c ∈ (s.run moves).engine.cells.versions key →
        (∀ a, v.lineage.contains a = true → ¬ Ascends (s.run moves).directory c.writer a) →
        (v.isVisible (s.run moves).directory key c).1 = .ok b →
        (b = true ↔ ∃ ts, CommittedAt (s.run moves).directory c.writer ts ∧ ts ≤ reader.begin)) ∧
      ∀ {id : TxnId} {v : View} {ts : Timestamp}, (s.run moves).directory.find? id = some v →
        v.effectiveCommit = some ts → CommittedAt (s.run moves).directory id ts := by
  have hrecords := (sound_run hs.sound hmoves).records
  have hcells : (s.run moves).engine.cells.Rooted (s.run moves).directory := by
    refine rooted_run hs.sound (fun key c hc => ?_) hmoves
    rw [engine, hs.timeline.engine.unwritten key] at hc
    exact absurd hc List.not_mem_nil
  refine ⟨fun {id v ts} hv hts => ?_, fun hc hts => hcells _ _ hc _ hts,
    fun {reader v key c b} hisolation hload hstored houtside hb => ?_,
    fun hv hts => hrecords.committedAt_effectiveCommit hv hts⟩
  · obtain ⟨us, hpath, hroot⟩ := hrecords.cached hv hts
    exact ⟨v, us, hv, hpath, hroot⟩
  · refine Visibility.isVisible_iff hrecords hisolation hload houtside (fun ts hts => ?_) hb
    rcases hstored with hnone | hc
    · simp [hnone] at hts
    · exact hcells key c hc ts hts

namespace CachedRoot

/-- An empty session with a resolver, and a sweeper that applies hand-offs at once. -/
def session : Session :=
  { timeline := { engine := { store := .single (.empty {}), resolver := some {}, sweeper := .prompt } } }

/-- A child of the transaction that begins first. -/
def child : View := { id := ⟨2⟩, begin := ⟨2⟩, parent := some ⟨1⟩ }

/-- A reader that begins after the commit of the root. -/
def reader : View := { id := ⟨5⟩, begin := ⟨5⟩ }

/-- The child writes and commits before its parent; then its root's timestamp is cached on its record,
and a reader has it cached on its cell. -/
def moves : List Move :=
  [.step (.begin { id := ⟨1⟩, begin := ⟨1⟩ }), .step (.begin child),
    .step (.applyBatch { name := "r" } false child [{ kind := .upsert, key := [1], value := [9] }]),
    .step (.commit ⟨2⟩ ⟨3⟩), .step (.commit ⟨1⟩ ⟨4⟩), .step (.resolve ⟨.globalCommit, ⟨2⟩⟩),
    .step (.begin reader), .step (.get reader [1])]

/-- The version that the child wrote, with the timestamp cached on it. -/
def cell : Cell := { timestamp := ⟨2⟩, writer := ⟨2⟩, value := some [9], commit := some ⟨4⟩ }

/-- The record of the child in the end. -/
def committedChild : View :=
  { child with phase := .committed, commit := some ⟨3⟩, globalCommit := some ⟨4⟩ }

theorem isFresh_session : session.IsFresh where
  timeline := by
    have hempty := Engine.isFresh_of_empty {} {} true none
    exact ⟨⟨hempty.unrecorded, hempty.unwritten, rfl⟩, rfl⟩
  views := rfl

/-- The reader is no ancestor of the child. -/
theorem reader_outside {d : Directory} (hchild : d.find? ⟨2⟩ = some committedChild) {v : View}
    (hroot : d.find? ⟨1⟩ = some v) (hparent : v.parent = none) :
    ∀ a, (Lineage.ofRoot reader).contains a = true → ¬ Ascends d ⟨2⟩ a := by
  intro a ha hascends
  have hreader : a = ⟨5⟩ := Lineage.contains_ofRoot.1 ha
  subst hreader
  have hid := (hascends.of_parent (by decide) hchild rfl).eq_of_root hroot hparent
  exact absurd hid (by decide)

end CachedRoot

/-- A timestamp cached on record and cell alike is that of the root, and the reader that has begun after
it sees the version. -/
theorem caches_agree_childOfRoot :
    CachedRoot.cell ∈ (CachedRoot.session.run CachedRoot.moves).engine.cells.versions [1] ∧
      (CachedRoot.session.run CachedRoot.moves).directory.find? ⟨2⟩ =
        some CachedRoot.committedChild ∧
      CommittedAt (CachedRoot.session.run CachedRoot.moves).directory ⟨2⟩ ⟨4⟩ ∧
      ∃ ts, CommittedAt (CachedRoot.session.run CachedRoot.moves).directory ⟨2⟩ ts ∧ ts ≤ ⟨5⟩ := by
  have hmoves : ∀ m ∈ CachedRoot.moves, m.Honest := by
    simp [CachedRoot.moves, Move.Honest]
  obtain ⟨hrecord, -, hvisible, -⟩ := Session.caches_agree CachedRoot.isFresh_session hmoves
  have hstored : CachedRoot.cell ∈
      (CachedRoot.session.run CachedRoot.moves).engine.cells.versions [1] := by
    decide +kernel
  have hchild : (CachedRoot.session.run CachedRoot.moves).directory.find? ⟨2⟩ =
      some CachedRoot.committedChild := by
    decide +kernel
  have hroot : (CachedRoot.session.run CachedRoot.moves).directory.find? ⟨1⟩ =
      some { id := ⟨1⟩, begin := ⟨1⟩, phase := .committed, commit := some ⟨4⟩ } := by
    decide +kernel
  have hload : Visibility.load (CachedRoot.session.run CachedRoot.moves).directory
      CachedRoot.reader = .ok { lineage := Lineage.ofRoot CachedRoot.reader } := by
    rw [Visibility.load, Lineage.load_root rfl]
  have hseen : (Visibility.isVisible (CachedRoot.session.run CachedRoot.moves).directory
      { lineage := Lineage.ofRoot CachedRoot.reader } [1] CachedRoot.cell).1 = .ok true := by
    decide +kernel
  exact ⟨hstored, hchild, hrecord hchild rfl,
    (hvisible rfl hload (.inr hstored) (CachedRoot.reader_outside hchild hroot rfl) hseen).1 rfl⟩

end Multiversion
