import Multiversion.Engine
import Multiversion.Proofs.Storage.RowChanges
import Multiversion.Proofs.Visibility.HandOffs

/-!
# Scans and point reads

A scan shares what it learns about writers among its rows, and looks at the cells as they are before anything
is cleaned up.  Point reads that follow each other learn everything anew, from cells that the earlier ones
have cleaned up.  They read the same.

* `Lineage.reads` — what a reader reads of a row, from the records alone;
* `HandOff.Fits` — a hand-off that says what the reader makes of the version that it is about;
* `Engine.ReadsOn` — any reads of one reader, one after the other;
* `Engine.SameReads` — what they leave as it is.

Main statements: clean-up that fits does not change what is read (`HandOff.reads_applyTo`), so no read of a
reader changes another one (`Engine.ReadsOn.sameReads`); `Engine.scan_eq_gets`.
-/

namespace Multiversion

namespace Lineage

variable {l : Lineage} {d : Directory} {key : Bytes} {cells : List Cell}

/-- What a reader reads of a row with some versions. -/
def readRow (l : Lineage) (d : Directory) (key : Bytes) (cells : List Cell) :
    Except TxnError (Option Mutation) :=
  (l.firstSeen d cells).map (Read.pairOf key)

/-- What a reader reads of a stored row. -/
def reads (l : Lineage) (d : Directory) (cells : CellStore) (key : Bytes) :
    Except TxnError (Option Mutation) :=
  l.readRow d key (cells.get key .everything)

theorem readRow_cons (l : Lineage) (d : Directory) (key : Bytes) (c : Cell) (rest : List Cell) :
    l.readRow d key (c :: rest) =
      match l.fateOf d c with
      | .error e => .error e
      | .ok f => if f.isVisibleTo l.view then .ok (Read.pairOf key (some c)) else l.readRow d key rest := by
  rw [readRow, firstSeen]
  cases l.fateOf d c with
  | error e => rfl
  | ok f =>
      cases hvisible : f.isVisibleTo l.view with
      | false => simp [hvisible, readRow]
      | true => cases hvalue : c.value <;> simp [hvisible, Except.map, Read.pairOf, Cell.isTombstone, hvalue]

/-- Versions that are gone can be left out. -/
theorem readRow_filter {p : Cell → Bool}
    (hgone : ∀ c ∈ cells, p c = false → l.fateOf d c = .ok .rolledBack) :
    l.readRow d key (cells.filter p) = l.readRow d key cells := by
  induction cells with
  | nil => rfl
  | cons c rest ih =>
      have hrest := ih fun x hx => hgone x (List.mem_cons_of_mem _ hx)
      rw [List.filter_cons, readRow_cons l d key c rest, ← hrest]
      split
      · exact readRow_cons l d key c _
      · rename_i hdropped
        rw [hgone c List.mem_cons_self (by simpa using hdropped)]
        rfl

theorem foreign_of_committed {c : Cell} {ts : Timestamp} {via : Bool}
    (h : l.fateOf d c = .ok (.committed ts via)) : l.contains c.writer = false := by
  cases hown : l.contains c.writer with
  | false => rfl
  | true => simp [fateOf, resolveWriter, hown] at h

/-- A timestamp that is cached on a version says what was known without it. -/
theorem fateOf_marked {c : Cell} {ts : Timestamp} {via : Bool}
    (h : l.fateOf d c = .ok (.committed ts via)) :
    l.fateOf d { c with commit := some ts } = .ok (.committed ts false) := by
  simp [fateOf, foreign_of_committed h]

/-- Cached timestamps do not change what is read. -/
theorem readRow_marked {writer : TxnId} {ts : Timestamp} {q : Cell → Bool}
    (hq : ∀ c : Cell, q { c with commit := some ts } = q c)
    (hmark : ∀ c ∈ cells, c.writer = writer → ∃ via, l.fateOf d c = .ok (.committed ts via)) :
    l.readRow d key ((Cell.markCommitted writer ts cells).filter q) = l.readRow d key (cells.filter q) := by
  induction cells with
  | nil => rfl
  | cons c rest ih =>
      have hrest := ih fun x hx => hmark x (List.mem_cons_of_mem _ hx)
      by_cases hwriter : c.writer = writer
      · obtain ⟨via, hfate⟩ := hmark c List.mem_cons_self hwriter
        rw [Cell.markCommitted, if_pos hwriter, List.filter_cons, List.filter_cons, hq]
        split
        · rw [readRow_cons, readRow_cons, hfate, fateOf_marked hfate]
          rfl
        · rfl
      · rw [Cell.markCommitted, if_neg hwriter, List.filter_cons, List.filter_cons]
        split
        · rw [readRow_cons, readRow_cons, hrest]
        · exact hrest

end Lineage

namespace HandOff

variable {l : Lineage} {d : Directory} {cells : CellStore} {h h' : HandOff}

/-- Whether a hand-off says what the reader makes of the version that it is about, if there is one. -/
def Fits (l : Lineage) (d : Directory) (cells : CellStore) (h : HandOff) : Prop :=
  ∀ c ∈ cells.versions h.key, c.writer = h.writer →
    ∃ f, l.fateOf d c = .ok f ∧ Visibility.handOffFor h.key h.writer f = some h

theorem key_of_handOffFor {key : Bytes} {writer : TxnId} {f : Fate}
    (h' : Visibility.handOffFor key writer f = some h) : h.key = key ∧ h.writer = writer := by
  cases f <;> cases h' <;> exact ⟨rfl, rfl⟩

/-- What the examined versions call for fits them, where no transaction has two versions. -/
theorem fits_of_callsFor {key : Bytes} (hsingle : ((cells.versions key).map Cell.writer).Nodup)
    (hcalls : l.CallsFor d key (cells.get key .everything) h) : h.Fits l d cells := by
  obtain ⟨c, hc, f, hfate, hhandOff⟩ := hcalls
  obtain ⟨rfl, hwriter⟩ := key_of_handOffFor hhandOff
  intro x hx hxwriter
  have hstored : c ∈ cells.versions h.key := (List.mem_filter.1 hc).1
  obtain rfl : x = c := List.inj_on_of_nodup_map hsingle hx hstored (hxwriter.trans hwriter)
  exact ⟨f, hfate, hxwriter ▸ hhandOff⟩

/-- What a hand-off of a commit timestamp says. -/
theorem Fits.committed {key : Bytes} {writer : TxnId} {ts : Timestamp}
    (hfits : (HandOff.committed key writer ts).Fits l d cells) :
    ∀ c ∈ cells.versions key, c.writer = writer → ∃ via, l.fateOf d c = .ok (.committed ts via) := by
  intro c hc hwriter
  obtain ⟨f, hfate, hhandOff⟩ := hfits c hc hwriter
  cases f with
  | committed commit via =>
      cases hhandOff
      exact ⟨via, hfate⟩
  | _ => cases hhandOff

theorem Fits.rolledBack {key : Bytes} {writer : TxnId}
    (hfits : (HandOff.rolledBack key writer).Fits l d cells) :
    ∀ c ∈ cells.versions key, c.writer = writer → l.fateOf d c = .ok .rolledBack := by
  intro c hc hwriter
  obtain ⟨f, hfate, hhandOff⟩ := hfits c hc hwriter
  cases f with
  | rolledBack => exact hfate
  | _ => cases hhandOff

/-- **Clean-up that fits** does not change what is read. -/
theorem reads_applyTo (hfits : h.Fits l d cells) (key : Bytes) :
    l.reads d (h.applyTo cells).2 key = l.reads d cells key := by
  rw [Lineage.reads, Lineage.reads, CellStore.get_everything, CellStore.get_everything, applyTo_eq,
    CellStore.versions_changeRow]
  split
  · rename_i hkey
    subst hkey
    cases h with
    | rolledBack key writer =>
        show l.readRow d key (((cells.versions key).filter _).filter _) = _
        rw [List.filter_comm]
        exact Lineage.readRow_filter fun c hc hdropped =>
          hfits.rolledBack c (List.mem_of_mem_filter hc) (by simpa using hdropped)
    | committed key writer ts => exact Lineage.readRow_marked (fun _ => rfl) hfits.committed
  · rfl

/-- Clean-up that fits leaves other hand-offs fitting. -/
theorem fits_applyTo (hfits : h.Fits l d cells) (hother : h'.Fits l d cells) :
    h'.Fits l d (h.applyTo cells).2 := by
  intro c hc hwriter
  rw [applyTo_eq, CellStore.versions_changeRow] at hc
  split at hc
  · rename_i hkey
    cases h with
    | rolledBack key writer => exact hother c (List.mem_of_mem_filter hc) hwriter
    | committed key writer ts =>
        rcases Cell.mem_markCommitted hc with hold | ⟨x, hx, hxwriter, rfl⟩
        · exact hother c hold hwriter
        · -- Both hand-offs are about this version, and so they say the same.
          have hrow : key = h'.key := hkey
          obtain ⟨via, hfate⟩ := hfits.committed x (hrow ▸ hx) hxwriter
          obtain ⟨f, hfate', hhandOff⟩ := hother x hx hwriter
          cases hfate.symm.trans hfate'
          exact ⟨.committed ts false, Lineage.fateOf_marked hfate, hhandOff⟩
  · exact hother c hc hwriter

end HandOff

/-- Clean-up that fits when it begins does not change what is read. -/
theorem CellStore.Tidied.reads {l : Lineage} {d : Directory} {P : HandOff → Prop} {cells cells' : CellStore}
    (htidied : cells.Tidied P cells') (hfits : ∀ h, P h → h.Fits l d cells) (key : Bytes) :
    l.reads d cells' key = l.reads d cells key := by
  induction htidied with
  | refl => rfl
  | @apply cells cells' h hkind _ ih =>
      have hfirst := hfits h hkind
      exact (ih fun h' hh' => HandOff.fits_applyTo hfirst (hfits h' hh')).trans
        (HandOff.reads_applyTo hfirst key)

theorem CellStore.Tidied.reachable {P : HandOff → Prop} {cells cells' : CellStore}
    (htidied : cells.Tidied P cells') (hcells : cells.Reachable) : cells'.Reachable := by
  induction htidied with
  | refl => exact hcells
  | @apply cells cells' h _ _ ih => exact ih (HandOff.reachable_applyTo hcells h)

namespace Lineage

variable {l : Lineage} {d : Directory}

/-- A row that is read has the key that it is read under. -/
theorem key_of_readRow {key : Bytes} {cells : List Cell} {m : Mutation}
    (h : (l.readRow d key cells).toOption.join = some m) : m.key = key := by
  unfold readRow at h
  cases hfirst : l.firstSeen d cells with
  | error e => simp [hfirst, Except.map, Except.toOption] at h
  | ok c =>
      simp only [hfirst, Except.map, Except.toOption, Option.join_some, Read.pairOf,
        Option.map_eq_some_iff] at h
      obtain ⟨value, -, rfl⟩ := h
      rfl

theorem seenRows_cons (l : Lineage) (d : Directory) (key : Bytes) (cells : List Cell)
    (rest : List (Bytes × List Cell)) :
    l.seenRows d ((key, cells) :: rest) =
      match l.readRow d key cells with
      | .error e => .error e
      | .ok m => (l.seenRows d rest).map (m.toList ++ ·) := by
  rw [seenRows, readRow]
  cases l.firstSeen d cells with
  | error e => rfl
  | ok c => cases l.seenRows d rest <;> rfl

/-- Reading rows one after the other gives what each of them gives, unless one of them fails. -/
theorem seenRows_eq_ok_iff {found : List (Bytes × List Cell)} {rows : List Mutation} :
    l.seenRows d found = .ok rows ↔
      (∀ row ∈ found, ∃ m, l.readRow d row.1 row.2 = .ok m) ∧
        rows = found.filterMap fun row => (l.readRow d row.1 row.2).toOption.join := by
  induction found generalizing rows with
  | nil => simp [seenRows, eq_comm]
  | cons row rest ih =>
      obtain ⟨key, cells⟩ := row
      rw [seenRows_cons, List.forall_mem_cons, List.filterMap_cons]
      cases hrow : l.readRow d key cells with
      | error e => simp
      | ok m =>
          have hrest : (l.seenRows d rest).map (m.toList ++ ·) = .ok rows ↔
              ∃ others, l.seenRows d rest = .ok others ∧ rows = m.toList ++ others := by
            cases l.seenRows d rest <;> simp [Except.map, eq_comm]
          rw [hrest]
          simp only [ih, Except.toOption, Option.join_some]
          cases m <;> simp

end Lineage

namespace Read

variable {d : Directory} {reader : View} {l : Lineage} {cells : CellStore} {range : KeyRange}

/-- **A scan succeeds** exactly if every stored key of the range can be read, and gives what they give. -/
theorem scan_eq_ok_iff (hload : Lineage.load d reader = .ok l) (hrange : range.isOrdered = true)
    {rows : List Mutation} :
    (scan d reader cells range).1 = .ok rows ↔
      (∀ key ∈ cells.storedIn range, ∃ m, l.reads d cells key = .ok m) ∧
        rows = (cells.storedIn range).filterMap fun key => (l.reads d cells key).toOption.join := by
  have hfound := cells.scan?_of_isOrdered hrange .everything
  have hmap : (l.seenRows d (cells.scan range .everything)).mapError ReadError.txn = .ok rows ↔
      l.seenRows d (cells.scan range .everything) = .ok rows := by
    cases l.seenRows d (cells.scan range .everything) <;> simp [Except.mapError]
  have hrows := cells.filterMap_scan range .everything
    (fun key found => (l.readRow d key found).toOption.join) fun _ => rfl
  rw [(scan_spec hload hfound).1, hmap, Lineage.seenRows_eq_ok_iff, hrows]
  refine and_congr_left' ⟨fun h key hkey => ?_, fun h row hrow => ?_⟩
  · by_cases hempty : cells.get key .everything = []
    · exact ⟨none, by rw [Lineage.reads, hempty]; rfl⟩
    · exact h (key, cells.get key .everything)
        (CellStore.mem_scan_iff.2 ⟨CellStore.contains_of_mem_storedIn hkey, rfl, hempty⟩)
  · obtain ⟨hcontains, hget, hne⟩ := CellStore.mem_scan_iff.1 hrow
    rw [hget] at hne ⊢
    exact h row.1 (CellStore.mem_storedIn_of_get hcontains hne)

/-- A scan fails exactly if some stored key of the range cannot be read. -/
theorem scan_eq_error_iff (hload : Lineage.load d reader = .ok l) (hrange : range.isOrdered = true) :
    (∃ err, (scan d reader cells range).1 = .error err) ↔
      ∃ key ∈ cells.storedIn range, ∃ err, l.reads d cells key = .error err := by
  cases hscan : (scan d reader cells range).1 with
  | ok rows =>
      refine iff_of_false nofun ?_
      rintro ⟨key, hkey, err, herr⟩
      obtain ⟨m, hm⟩ := ((scan_eq_ok_iff hload hrange).1 hscan).1 key hkey
      cases herr.symm.trans hm
  | error err =>
      refine iff_of_true ⟨err, rfl⟩ ?_
      by_contra hnone
      have hall : ∀ key ∈ cells.storedIn range, ∃ m, l.reads d cells key = .ok m := by
        intro key hkey
        cases hread : l.reads d cells key with
        | ok m => exact ⟨m, rfl⟩
        | error e => exact absurd ⟨key, hkey, e, hread⟩ hnone
      cases hscan.symm.trans ((scan_eq_ok_iff hload hrange).2 ⟨hall, rfl⟩)

end Read

namespace Sweeper

variable {s : Sweeper}

/-- A sweeper that leaves nothing for later. -/
def IsImmediate (s : Sweeper) : Prop := s = .ignoring ∨ s = .prompt

theorem IsImmediate.pending (hs : s.IsImmediate) : s.pending = [] := by
  rcases hs with rfl | rfl <;> rfl

theorem IsImmediate.receiveAll (hs : s.IsImmediate) (cells : CellStore) (handOffs : List HandOff) :
    (s.receiveAll cells handOffs).1 = s := by
  induction handOffs generalizing cells with
  | nil => rfl
  | cons h rest ih => rcases hs with rfl | rfl <;> exact ih _

end Sweeper

namespace Engine

variable {reader : View} {e e' : Engine}

/-- Reads of one reader, one after the other. -/
inductive ReadsOn (reader : View) : Engine → Engine → Prop
  | refl (e : Engine) : ReadsOn reader e e
  | get {e e' : Engine} (key : Bytes) (h : ReadsOn reader (e.get reader key).2.2 e') : ReadsOn reader e e'
  | scan {e e' : Engine} (range : KeyRange) (h : ReadsOn reader (e.scan reader range).2.2 e') :
      ReadsOn reader e e'

/-- What the reads of a reader leave as it is. -/
structure SameReads (reader : View) (e e' : Engine) : Prop where
  directory : e'.directory = e.directory
  sweeper : e'.sweeper = e.sweeper
  reachable : e'.cells.Reachable
  reads : ∀ {l : Lineage}, Lineage.load e.directory reader = .ok l → ∀ key,
    l.reads e.directory e'.cells key = l.reads e.directory e.cells key

theorem SameReads.trans {e'' : Engine} (h : e.SameReads reader e') (h' : e'.SameReads reader e'') :
    e.SameReads reader e'' where
  directory := h'.directory.trans h.directory
  sweeper := h'.sweeper.trans h.sweeper
  reachable := h'.reachable
  reads {l} hload key := by
    have hsecond := h'.reads (h.directory ▸ hload) key
    rw [h.directory] at hsecond
    exact hsecond.trans (h.reads hload key)

/-- What is left for an immediate sweeper does not change what is read, if it fits. -/
theorem sameReads_post (hsweeper : e.sweeper.IsImmediate) (hcells : e.cells.Reachable) {outbox : Outbox}
    (hfits : ∀ {l : Lineage}, Lineage.load e.directory reader = .ok l →
      ∀ h ∈ outbox.handOffs, h.Fits l e.directory e.cells) :
    e.SameReads reader (e.post outbox) := by
  obtain ⟨htidied, -⟩ := Sweeper.tidied_receiveAll (P := (· ∈ outbox.handOffs)) (s := e.sweeper)
    (by simp [hsweeper.pending]) (fun _ hh => hh) e.cells
  exact {
    directory := rfl
    sweeper := hsweeper.receiveAll e.cells outbox.handOffs
    reachable := htidied.reachable hcells
    reads := fun hload key => htidied.reads (hfits hload) key }

theorem sameReads_get (hsweeper : e.sweeper.IsImmediate) (hcells : e.cells.Reachable) (key : Bytes) :
    e.SameReads reader (e.get reader key).2.2 :=
  sameReads_post hsweeper hcells fun hload h hh =>
    HandOff.fits_of_callsFor (hcells.single key) ((Read.get_spec hload e.cells key).2 h hh)

theorem sameReads_scan (hsweeper : e.sweeper.IsImmediate) (hcells : e.cells.Reachable)
    (range : KeyRange) : e.SameReads reader (e.scan reader range).2.2 := by
  refine sameReads_post hsweeper hcells fun {l} hload h hh => ?_
  cases hfound : e.cells.scan? range .everything with
  | none =>
      have hview : Visibility.load e.directory reader = .ok { lineage := l } := by
        simp [Visibility.load, hload]
      simp [hview, Selection.widen, hfound] at hh
  | some found =>
      obtain ⟨row, hrow, hcalls⟩ := (Read.scan_spec hload hfound).2 h hh
      rw [← CellStore.eq_scan_of_scan? hfound] at hrow
      rw [CellStore.get_of_mem_scan hrow] at hcalls
      exact HandOff.fits_of_callsFor (hcells.single row.1) hcalls

/-- **No read of a reader changes what it reads.** -/
theorem ReadsOn.sameReads (h : ReadsOn reader e e') (hsweeper : e.sweeper.IsImmediate)
    (hcells : e.cells.Reachable) : e.SameReads reader e' := by
  induction h with
  | refl e => exact ⟨rfl, rfl, hcells, fun _ _ => rfl⟩
  | get key _ ih =>
      have hfirst : SameReads reader _ _ := sameReads_get hsweeper hcells key
      exact hfirst.trans (ih (hfirst.sweeper ▸ hsweeper) hfirst.reachable)
  | scan range _ ih =>
      have hfirst : SameReads reader _ _ := sameReads_scan hsweeper hcells range
      exact hfirst.trans (ih (hfirst.sweeper ▸ hsweeper) hfirst.reachable)

/-- **A scan is the list of the point reads.**  Whatever the same reader has read before each of them, and
whatever was cleaned up after it, a scan over a range in order gives the values of the point reads of the
stored keys, in strictly ascending order; and it fails exactly if the reader's lineage cannot be loaded or
one of these point reads fails. -/
theorem scan_eq_gets (hsweeper : e.sweeper.IsImmediate) (hcells : e.cells.Reachable) {range : KeyRange}
    (hrange : range.isOrdered = true) {now : Engine} (hnow : ReadsOn reader e now)
    {later : Bytes → Engine} (hlater : ∀ key, ReadsOn reader e (later key)) :
    (∀ rows, (now.scan reader range).1 = .ok rows →
      rows.Pairwise (fun a b => compare a.key b.key = .lt) ∧
        rows = (now.cells.storedIn range).filterMap fun key =>
          ((later key).get reader key).1.toOption.join) ∧
      ((∃ err, (now.scan reader range).1 = .error err) ↔
        (∃ err, Visibility.load e.directory reader = .error err) ∨
          ∃ key ∈ now.cells.storedIn range, ∃ err, ((later key).get reader key).1 = .error err) := by
  have hscanned := hnow.sameReads hsweeper hcells
  cases hload : Lineage.load e.directory reader with
  | error err =>
      have hview : Visibility.load e.directory reader = .error err := by
        simp [Visibility.load, hload]
      have hscan : (now.scan reader range).1 = .error (.txn err) := by
        show (Read.scan now.directory reader now.cells range).1 = _
        rw [hscanned.directory, Read.scan, hview]
      refine ⟨fun rows hrows => ?_, iff_of_true ⟨_, hscan⟩ (.inl ⟨err, hview⟩)⟩
      cases hscan.symm.trans hrows
  | ok l =>
      have hview : Visibility.load e.directory reader = .ok { lineage := l } := by
        simp [Visibility.load, hload]
      have hget : ∀ key, ((later key).get reader key).1 = l.reads e.directory now.cells key := by
        intro key
        have hread := (hlater key).sameReads hsweeper hcells
        show (Read.get (later key).directory reader (later key).cells key).1 = _
        rw [hread.directory, (Read.get_spec hload (later key).cells key).1, hscanned.reads hload]
        exact hread.reads hload key
      have hscan : (now.scan reader range).1 = (Read.scan e.directory reader now.cells range).1 := by
        show (Read.scan now.directory reader now.cells range).1 = _
        rw [hscanned.directory]
      simp only [hscan, hget]
      constructor
      · intro rows hrows
        obtain ⟨-, rfl⟩ := (Read.scan_eq_ok_iff hload hrange).1 hrows
        exact ⟨now.cells.ordered_filterMap_storedIn range fun hm => Lineage.key_of_readRow hm, rfl⟩
      · rw [Read.scan_eq_error_iff hload hrange, hview]
        simp

end Engine

namespace StaleRows

def reader : View := { id := ⟨4⟩, begin := ⟨9⟩ }

/-- One transaction has committed, one has rolled back, and one is still active. -/
def store : TxnStore :=
  [Change.begin { id := ⟨1⟩, begin := ⟨1⟩ }, .begin { id := ⟨2⟩, begin := ⟨2⟩ },
    .begin { id := ⟨3⟩, begin := ⟨3⟩ }, .begin reader, .commit ⟨1⟩ ⟨5⟩, .rollback ⟨2⟩].foldl
    (fun t change => (t.submit 0 change).2) (.single (.empty {}))

def version (timestamp writer : UInt64) : Cell :=
  { timestamp := ⟨timestamp⟩, writer := ⟨writer⟩, value := some [writer.toUInt8] }

/-- The rolled-back transaction has written on top of the committed one, and alone. -/
def cells : CellStore :=
  [([1], version 1 1), ([1], version 2 2), ([2], version 1 1), ([3], version 2 2), ([4], version 3 3)].foldl
    (fun s row => s.put row.1 row.2) ({} : CellStore)

def engine : Engine := { store, cells, sweeper := .prompt }

theorem reachable : cells.Reachable :=
  ((((CellStore.Reachable.empty.put _ _).put _ _).put _ _).put _ _).put _ _

/-- The engine after a scan, without the rolled-back versions. -/
def cleaned : Engine := (engine.scan reader {}).2.2

def rows : List Mutation :=
  [{ kind := .upsert, key := [1], value := [1] }, { kind := .upsert, key := [2], value := [1] }]

theorem scanned : (engine.scan reader {}).1 = .ok rows ∧ engine.cells.storedIn {} = [[1], [2], [3], [4]] ∧
    cleaned.cells.storedIn {} = [[1], [2], [4]] := by
  decide +kernel

end StaleRows

/-- The rows of a scan are those of the point reads after it, though one of the rows is gone by then. -/
theorem scan_eq_gets_staleRows :
    StaleRows.cleaned.cells.storedIn {} = [[1], [2], [4]] ∧
    (StaleRows.engine.scan StaleRows.reader {}).1 = .ok StaleRows.rows ∧
    StaleRows.rows = (StaleRows.engine.cells.storedIn {}).filterMap fun key =>
      (StaleRows.cleaned.get StaleRows.reader key).1.toOption.join := by
  obtain ⟨hscan, -, hcleaned⟩ := StaleRows.scanned
  have hlater : ∀ _ : Bytes, Engine.ReadsOn StaleRows.reader StaleRows.engine StaleRows.cleaned :=
    fun _ => .scan {} (.refl _)
  have heq := (Engine.scan_eq_gets (.inr rfl) StaleRows.reachable rfl (.refl _) hlater).1 _ hscan
  exact ⟨hcleaned, hscan, heq.2⟩

end Multiversion
