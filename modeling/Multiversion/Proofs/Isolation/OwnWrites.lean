import Multiversion.Proofs.Isolation.Nesting
import Multiversion.Proofs.Lineage.Rising

/-!
# Reading one's own writes

A transaction reads the newest version that it sees, by begin timestamp.  Its own version stands at its
own begin timestamp, below those of its children, and work that a child has committed into it is seen.
So a transaction that writes a row after one of its children has committed a write to it goes on reading
the child's value, although the write succeeds.

* `OpenReader` — an active transaction under snapshot isolation, with its lineage;
* `Belated` — work that counts as older than the transaction that did it;
* `OpenReader.committedInto_of_sees` — of the transactions that began after it, a reader sees those that
  have committed into it.

Main statement: `Session.get_ownWrite` — a transaction reads its own last write to a row, unless work on
that row was committed into it; then it reads the last write of the writer that began last.
-/

namespace Multiversion

/-- The work of a transaction that began after `t`, and yet counts as old: everything has committed up to
an ancestor that had done so before `t` began, and that is a root, or stands below an ancestor of `t`. -/
def Belated (d : Directory) (t : View) (id : TxnId) : Prop :=
  ∃ u top c, d.find? id = some u ∧ t.begin < u.begin ∧ CommittedUpTo d id top ∧
    top.commit = some c ∧ c ≤ t.begin ∧ ∀ a, top.parent = some a → Ascends d t.id a

/-- An active transaction under snapshot isolation, with its lineage. -/
structure OpenReader (d : Directory) (t : View) (l : Lineage) : Prop where
  recorded : d.find? t.id = some t
  active : t.phase = .active
  isolation : t.isolation = .snapshotIsolation
  view : l.view = t
  loaded : Lineage.load d t = .ok l
  -- The lineage holds the transaction and its ancestors.
  mem : ∀ {a : TxnId}, l.contains a = true ↔ Ascends d t.id a

/-- Work that was committed into a transaction falls with it only. -/
theorem CommittedUpTo.fallen {d : Directory} {a id : TxnId} {top : View} (h : CommittedUpTo d id top)
    (htop : top.parent = some a) (hfallen : Fallen d id) : Fallen d a := by
  have hbelow : ∀ {id parent : TxnId} {v : View}, d.find? id = some v → v.phase = .committed →
      v.parent = some parent → Fallen d id → Fallen d parent := by
    intro id parent v hfind hphase hparent hfallen
    cases hfallen with
    | rolledBack hfind' hrolled =>
        cases hfind.symm.trans hfind'
        simp [hphase] at hrolled
    | step hfind' _ hparent' hrest =>
        cases hfind.symm.trans hfind'
        cases hparent.symm.trans hparent'
        exact hrest
  induction h with
  | self hfind hphase => exact hbelow hfind hphase htop hfallen
  | step hfind hphase hparent _ ih => exact ih htop (hbelow hfind hphase hparent hfallen)

/-- Only elements of the lineage are called own. -/
theorem Lineage.contains_of_own {d : Directory} {l : Lineage} {writer : TxnId}
    (h : l.resolveWriter d writer = .ok .own) : l.contains writer = true := by
  have hwalk : ∀ {room : Nat} {below : Option Timestamp} {v : View},
      l.walk d writer room below v ≠ .ok .own := by
    intro room below v hv
    fun_induction walk l d writer room below v with
    | case9 _ _ _ _ _ _ _ _ _ _ _ _ ih => exact ih hv
    | _ => cases hv
  unfold resolveWriter at h
  split at h
  · assumption
  · split at h
    · cases h
    · exact absurd h hwalk

namespace OpenReader

variable {d : Directory} {t : View} {l : Lineage} {issued : Timestamp}

/-- A transaction that has a version has a lineage. -/
theorem of_recorded (hd : d.Sound) (hordered : d.Ordered issued) {c : Cell} (hc : c.Recorded d)
    (hwriter : c.writer = t.id) (ht : d.find? t.id = some t) (hactive : t.phase = .active) :
    ∃ l, OpenReader d t l := by
  obtain ⟨v, us, hv, hpath, hlength, -, -⟩ := hc
  rw [hwriter] at hv
  cases ht.symm.trans hv
  exact ⟨_, ht, hactive, hordered.snapshot ht, rfl, Lineage.load_of_path hd ht hpath hlength,
    Lineage.contains_iff_ascends hd ht hpath⟩

theorem begin_lt_of_committedInto (hr : OpenReader d t l) (hordered : d.Ordered issued) {id : TxnId}
    (hinto : CommittedInto d t.id id) {u : View} (hu : d.find? id = some u) : t.begin < u.begin := by
  obtain ⟨top, hup, htop⟩ := hinto
  rcases hordered.begin_lt_of_ascends (hup.ascends htop) hu hr.recorded with rfl | hlt
  · have hcommitted := (hup.of_find hr.recorded).1
    simp [hr.active] at hcommitted
  · exact hlt

/-- Whoever began after a transaction is not on its lineage. -/
theorem outside_of_begin_lt (hr : OpenReader d t l) (hordered : d.Ordered issued) {id : TxnId}
    {u : View} (hu : d.find? id = some u) (hafter : t.begin < u.begin) : l.contains id = false := by
  by_contra hown
  rcases hordered.begin_lt_of_ascends (hr.mem.1 (by simpa using hown)) hr.recorded hu with rfl | hlt
  · cases hr.recorded.symm.trans hu
    exact Timestamp.lt_asymm hafter hafter
  · exact Timestamp.lt_asymm hafter hlt

theorem outside_of_committedInto (hr : OpenReader d t l) (hordered : d.Ordered issued) {id : TxnId}
    (hinto : CommittedInto d t.id id) : l.contains id = false := by
  obtain ⟨u, hu⟩ : ∃ u, d.find? id = some u := by
    obtain ⟨top, hup, -⟩ := hinto
    cases hup with
    | self hfind => exact ⟨_, hfind⟩
    | step hfind => exact ⟨_, hfind⟩
  exact hr.outside_of_begin_lt hordered hu (hr.begin_lt_of_committedInto hordered hinto hu)

theorem exists_fateOf (hd : d.Sound) {c : Cell} (hc : c.Recorded d) :
    ∃ f, l.fateOf d c = .ok f := by
  obtain ⟨v, us, hv, hpath, hlength, -, -⟩ := hc
  have hkeyed : v.id = c.writer := hd.keyed hv
  unfold Lineage.fateOf
  split
  · exact ⟨_, rfl⟩
  · rw [← hkeyed] at hv ⊢
    exact Lineage.exists_resolveWriter hd l hv hpath hlength

theorem sees_own (hr : OpenReader d t l) {c : Cell} (hwriter : c.writer = t.id) :
    l.sees d c = true := by
  have hown : l.contains c.writer = true := hr.mem.2 (hwriter ▸ .refl _)
  simp [Lineage.sees, Lineage.fateOf, Lineage.resolveWriter, hown, Fate.isVisibleTo]

/-- A transaction sees the work that was committed into it. -/
theorem sees_of_committedInto (hr : OpenReader d t l) (hd : d.Sound) (hordered : d.Ordered issued)
    {c : Cell} (hc : c.Recorded d) (hinto : CommittedInto d t.id c.writer) : l.sees d c = true := by
  obtain ⟨v, us, hv, hpath, hlength, -, hcached⟩ := hc
  have hkeyed : v.id = c.writer := hd.keyed hv
  have huncached : c.commit = none := by
    obtain ⟨top, hup, htop⟩ := hinto
    cases hcommit : c.commit with
    | none => rfl
    | some ts =>
        have hroot := hcached ts hcommit
        exact absurd ⟨v, us, hv, hpath, hroot⟩ (hup.not_committedAt hd htop hr.recorded hr.active)
  rw [← hkeyed] at hv hinto
  obtain ⟨ts, hfate⟩ := Lineage.resolveWriter_of_committedInto hd hr.recorded hr.active
    (hr.mem.2 (.refl _)) (fun _ => hr.outside_of_committedInto hordered) hinto hv hpath hlength
  rw [hkeyed] at hfate
  simp [Lineage.sees, Lineage.fateOf, huncached, hfate, Fate.isVisibleTo, hr.view]

/-- **What a transaction sees of those that began after it** is what was committed into it. -/
theorem committedInto_of_sees (hr : OpenReader d t l) (hd : d.Sound) (hordered : d.Ordered issued)
    {c : Cell} (hc : c.Recorded d) {u : View} (hu : d.find? c.writer = some u)
    (hafter : t.begin < u.begin) (htimely : ¬ Belated d t c.writer) (hsees : l.sees d c = true) :
    CommittedInto d t.id c.writer := by
  -- Nothing up to the root had committed before the reader began.
  have hroot : ∀ {ts : Timestamp}, CommittedAt d c.writer ts → ¬ ts ≤ t.begin := by
    intro ts hts hle
    obtain ⟨top, hup, hparent, hcommit⟩ := hts.exists_root
    exact htimely ⟨u, top, ts, hu, hafter, hup, hcommit, hle, by simp [hparent]⟩
  have hforeign : ¬ l.contains c.writer = true := by
    simp [hr.outside_of_begin_lt hordered hu hafter]
  obtain ⟨f, hf⟩ := exists_fateOf (l := l) hd hc
  have hvisible : f.isVisibleTo t = true := by
    simpa [Lineage.sees, hf, hr.view] using hsees
  have hfate := hf
  unfold Lineage.fateOf at hfate
  rw [if_neg hforeign] at hfate
  cases hcommit : c.commit with
  | some ts =>
      rw [hcommit] at hfate
      cases hfate
      obtain ⟨v, us, hv, hpath, -, -, hcached⟩ := hc
      have hle : ts ≤ t.begin := by simpa [Fate.isVisibleTo, hr.isolation] using hvisible
      exact absurd hle (hroot ⟨v, us, hv, hpath, hcached ts hcommit⟩)
  | none =>
      rw [hcommit] at hfate
      have hholds := Lineage.holds_of_resolveWriter hd hfate
      cases f with
      | own => exact absurd (Lineage.contains_of_own hfate) hforeign
      | committedInto a ts =>
          obtain ⟨top, hup, hparent, hcommit⟩ := Lineage.committedUpTo_of_resolveWriter hd hfate
          have hcases : a = t.id ∨ ts ≤ t.begin := by
            simpa [Fate.isVisibleTo, hr.isolation] using hvisible
          rcases hcases with rfl | hle
          · exact ⟨top, hup, hparent⟩
          · refine absurd ⟨u, top, ts, hu, hafter, hup, hcommit, hle, fun b hb => ?_⟩ htimely
            cases hparent.symm.trans hb
            exact hr.mem.1 hholds.1
      | committed ts via =>
          have hle : ts ≤ t.begin := by simpa [Fate.isVisibleTo, hr.isolation] using hvisible
          exact absurd hle (hroot hholds)
      | active => simp [Fate.isVisibleTo, hr.isolation] at hvisible
      | rolledBack => simp [Fate.isVisibleTo] at hvisible

end OpenReader

namespace Session

variable {s : Session} {t : View} {key : Bytes}

/-- Whoever has written a row, and whose work is not gone, has its last write there. -/
theorem Orderly.version_of_lastWrite (h : s.Orderly) {u : View} (hu : s.directory.find? u.id = some u)
    (hlive : ¬ Fallen s.directory u.id) {w : Write}
    (hlast : lastWrite? s.timeline.writes u.id key = some w) :
    ∃ c ∈ s.engine.cells.versions key, c.writer = u.id ∧ c.timestamp = u.begin ∧
      c.value = w.value := by
  obtain ⟨hw, hwriter, rfl⟩ := of_lastWrite hlast
  obtain ⟨-, -, hkept⟩ := h.digest.kept w hw
  obtain ⟨c, hc, hcwriter⟩ := List.mem_map.1 (hkept (hwriter ▸ hlive))
  have hid : c.writer = u.id := hcwriter.trans hwriter
  obtain ⟨v, us, hv, -, -, htimestamp, -⟩ := h.cells w.key c hc
  obtain ⟨last, hcurrent, hvalue⟩ := h.digest.current w.key c hc
  rw [hid, hu] at hv
  cases hv
  rw [hid, hlast] at hcurrent
  cases hcurrent
  exact ⟨c, hc, hid, htimestamp, hvalue.symm⟩

/-- A transaction reads the last write of the one that began last, among itself and those that have
committed into it. -/
theorem Orderly.get_eq_of_latest (h : s.Orderly) (ht : s.directory.find? t.id = some t)
    (hactive : t.phase = .active) (hwrote : ∃ w, lastWrite? s.timeline.writes t.id key = some w)
    (htimely : ∀ f ∈ s.timeline.writes, f.key = key → ¬ Belated s.directory t f.writer) {u : View}
    {w : Write} (hu : s.directory.find? u.id = some u)
    (hown : u.id = t.id ∨ CommittedInto s.directory t.id u.id) (hbegin : u.begin < .latest)
    (hlast : lastWrite? s.timeline.writes u.id key = some w)
    (hlatest : ∀ f ∈ s.timeline.writes, f.key = key → CommittedInto s.directory t.id f.writer →
      ∀ {x : View}, s.directory.find? f.writer = some x → x.begin ≤ u.begin) :
    (s.engine.get t key).1 =
      .ok (w.value.map fun value => { kind := .upsert, key, value }) := by
  have hlive : ¬ Fallen s.directory t.id := fun hfallen => hfallen.not_active ht hactive
  obtain ⟨own, hown'⟩ := hwrote
  obtain ⟨c₀, hc₀, hwriter₀, -, -⟩ := h.version_of_lastWrite ht hlive hown'
  obtain ⟨l, hr⟩ := OpenReader.of_recorded h.records h.ordered (h.cells key c₀ hc₀) hwriter₀ ht hactive
  have hulive : ¬ Fallen s.directory u.id := by
    rcases hown with hid | ⟨top, hup, htop⟩
    · rwa [hid]
    · exact fun hfallen => hlive (hup.fallen htop hfallen)
  have hafter : t.begin ≤ u.begin := by
    rcases hown with hid | hinto
    · rw [hid, ht] at hu
      cases hu
      exact Timestamp.le_refl _
    · exact Timestamp.le_of_lt (hr.begin_lt_of_committedInto h.ordered hinto hu)
  obtain ⟨c, hc, hwriter, htimestamp, hvalue⟩ := h.version_of_lastWrite hu hulive hlast
  have hsees : l.sees s.directory c = true := by
    rcases hown with hid | hinto
    · exact hr.sees_own (hwriter.trans hid)
    · exact hr.sees_of_committedInto h.records h.ordered (h.cells key c hc) (hwriter ▸ hinto)
  have hcovered : Selection.everything.covers c = true := by
    simp only [Selection.covers, Selection.everything, htimestamp, Bool.and_eq_true,
      decide_eq_true_eq]
    exact ⟨Timestamp.earliest_le _, hbegin⟩
  -- Every other version that the reader sees is older.
  have holder : ∀ x ∈ s.engine.cells.versions key,
      (l.sees s.directory x && Selection.everything.covers x) = true → x ≠ c →
      x.timestamp < c.timestamp := by
    intro x hx hxsees hother
    rw [Bool.and_eq_true] at hxsees
    obtain ⟨v, us, hv, -, -, hbegun, -⟩ := h.cells key x hx
    obtain ⟨f, hf, -⟩ := h.digest.current key x hx
    obtain ⟨hmem, hfwriter, hfkey⟩ := of_lastWrite hf
    have hle : v.begin ≤ u.begin := by
      by_cases hlt : t.begin < v.begin
      · have htimely' := htimely f hmem hfkey
        rw [hfwriter] at htimely'
        have hinto := hr.committedInto_of_sees h.records h.ordered (h.cells key x hx) hv hlt htimely'
          hxsees.1
        exact hlatest f hmem hfkey (hfwriter ▸ hinto) (hfwriter ▸ hv)
      · exact Timestamp.le_trans (Timestamp.not_lt.1 hlt) hafter
    rw [hbegun, htimestamp]
    refine Timestamp.lt_of_le_of_ne hle fun hsame => hother ?_
    have hid : x.writer = u.id := h.ordered.distinct hv hu hsame
    exact List.inj_on_of_nodup_map (h.digest.single key) hx hc (hid.trans hwriter.symm)
  have hresolves : l.Resolves s.directory (s.engine.cells.get key .everything) := by
    intro x hx
    rw [CellStore.get_everything] at hx
    exact OpenReader.exists_fateOf h.records (h.cells key x (List.mem_of_mem_filter hx))
  show (Read.get s.directory t s.engine.cells key).1 = _
  rw [Read.get_of_resolvable hr.loaded hresolves, CellStore.get_everything,
    List.filter_filter, (h.digest.ordered key).head?_filter hc (by simp [hsees, hcovered]) holder]
  simp [Read.pairOf, hvalue]

/-- **What a transaction reads of a row that it has written.**  It is its own last write, unless work on
that row was committed into it; then it is the last write of the writer that began last.  This leaves
out rows with a belated writer. -/
theorem get_ownWrite (hs : s.IsFresh) {moves : List Move} (hmoves : s.Admits Permits moves)
    (ht : (s.run moves).directory.find? t.id = some t) (hactive : t.phase = .active)
    (hbegin : t.begin < .latest) {w : Write}
    (hlast : lastWrite? (s.run moves).timeline.writes t.id key = some w)
    (htimely : ∀ f ∈ (s.run moves).timeline.writes, f.key = key →
      ¬ Belated (s.run moves).directory t f.writer) :
    ((∀ f ∈ (s.run moves).timeline.writes, f.key = key →
        ¬ CommittedInto (s.run moves).directory t.id f.writer) →
      ((s.run moves).engine.get t key).1 =
        .ok (w.value.map fun value => { kind := .upsert, key, value })) ∧
    ∀ {u : View} {w' : Write}, (s.run moves).directory.find? u.id = some u →
      CommittedInto (s.run moves).directory t.id u.id → u.begin < .latest →
      lastWrite? (s.run moves).timeline.writes u.id key = some w' →
      (∀ f ∈ (s.run moves).timeline.writes, f.key = key →
        CommittedInto (s.run moves).directory t.id f.writer →
        ∀ {x : View}, (s.run moves).directory.find? f.writer = some x → x.begin ≤ u.begin) →
      ((s.run moves).engine.get t key).1 =
        .ok (w'.value.map fun value => { kind := .upsert, key, value }) := by
  have horderly := orderly_run hs.orderly hmoves
  constructor
  · intro hnone
    exact horderly.get_eq_of_latest ht hactive ⟨w, hlast⟩ htimely ht (.inl rfl) hbegin hlast
      fun f hf hkey hinto => absurd hinto (hnone f hf hkey)
  · intro u w' hu hinto hubegin hulast hlatest
    exact horderly.get_eq_of_latest ht hactive ⟨w, hlast⟩ htimely hu (.inr hinto) hubegin hulast hlatest

end Session

namespace Overwriting

/-- An empty session. -/
def session : Session := { timeline := { engine := { store := .single (.empty {}) } } }

/-- The parent. -/
def parent : View := { id := ⟨1⟩, begin := ⟨1⟩ }

/-- Its child. -/
def child : View := { id := ⟨2⟩, begin := ⟨2⟩, parent := some ⟨1⟩ }

/-- The record of the child in the end. -/
def committedChild : View := { child with phase := .committed, commit := some ⟨3⟩ }

/-- The child writes a row and commits; then the parent writes the row. -/
def moves : List Move :=
  [.step (.begin parent), .step (.begin child),
    .step (.applyBatch { name := "r" } false child [{ kind := .upsert, key := [1], value := [2] }]),
    .step (.commit ⟨2⟩ ⟨3⟩),
    .step (.applyBatch { name := "r" } false parent [{ kind := .upsert, key := [1], value := [1] }])]

/-- The write of the parent. -/
def parentWrite : Write := { writer := ⟨1⟩, key := [1], value := some [1], overtook := [] }

/-- The write of the child. -/
def childWrite : Write := { writer := ⟨2⟩, key := [1], value := some [2], overtook := [] }

theorem isFresh_session : session.IsFresh :=
  ⟨⟨Engine.isFresh_of_empty {} {} true none, rfl⟩, rfl⟩

theorem admits_moves : session.Admits Session.Permits moves := by
  refine ⟨Session.permits_of_change rfl ⟨rfl, by decide, fun _ hparent => by cases hparent⟩,
    Session.permits_of_change rfl ⟨rfl, by decide, fun id hid => ?_⟩,
    Session.permits_applyBatch ?_ _ _ _, Session.permits_of_change rfl ?_,
    Session.permits_applyBatch ?_ _ _ _, trivial⟩
  · cases hid
    exact ⟨parent, by decide +kernel⟩
  · decide +kernel
  · show Timestamp.mk 2 < Timestamp.mk 3
    decide
  · decide +kernel

theorem writes_moves : (session.run moves).timeline.writes = [parentWrite, childWrite] := by
  decide +kernel

theorem find?_parent : (session.run moves).directory.find? parent.id = some parent := by
  decide +kernel

theorem find?_child :
    (session.run moves).directory.find? committedChild.id = some committedChild := by
  decide +kernel

/-- Neither write is that of a belated writer. -/
theorem timely {d : Directory} (hparent : d.find? parent.id = some parent)
    (hchild : d.find? committedChild.id = some committedChild) :
    ∀ f ∈ [parentWrite, childWrite], ¬ Belated d parent f.writer := by
  intro f hf
  rcases List.mem_cons.1 hf with rfl | hf
  · rintro ⟨u, -, -, hu, hlt, -⟩
    cases hparent.symm.trans hu
    exact absurd hlt (by decide)
  · rw [List.mem_singleton.1 hf]
    rintro ⟨-, top, c, -, -, hup, hcommit, hle, -⟩
    rcases (hup.of_find hchild).2 with rfl | ⟨id, hid, hrest⟩
    · cases hcommit
      exact absurd hle (by decide)
    · cases hid
      have hphase := (hrest.of_find hparent).1
      exact absurd hphase (by decide)

/-- Nobody who wrote the row began after the child. -/
theorem begin_le_child {d : Directory} (hparent : d.find? parent.id = some parent)
    (hchild : d.find? committedChild.id = some committedChild) :
    ∀ f ∈ [parentWrite, childWrite], ∀ {x : View}, d.find? f.writer = some x →
      x.begin ≤ committedChild.begin := by
  intro f hf x hx
  rcases List.mem_cons.1 hf with rfl | hf
  · cases hparent.symm.trans hx
    decide
  · rw [List.mem_singleton.1 hf] at hx
    cases hchild.symm.trans hx
    decide

end Overwriting

/-- The parent reads the value of the child, whose work was committed into it. -/
theorem get_ownWrite_overwriting :
    ((Overwriting.session.run Overwriting.moves).engine.get Overwriting.parent [1]).1 =
      .ok (Overwriting.childWrite.value.map fun value => { kind := .upsert, key := [1], value }) := by
  have hlast : lastWrite? (Overwriting.session.run Overwriting.moves).timeline.writes
      Overwriting.parent.id [1] = some Overwriting.parentWrite := by
    rw [Overwriting.writes_moves]
    decide
  have hlast' : lastWrite? (Overwriting.session.run Overwriting.moves).timeline.writes
      Overwriting.committedChild.id [1] = some Overwriting.childWrite := by
    rw [Overwriting.writes_moves]
    decide
  have htimely : ∀ f ∈ (Overwriting.session.run Overwriting.moves).timeline.writes, f.key = [1] →
      ¬ Belated (Overwriting.session.run Overwriting.moves).directory Overwriting.parent f.writer := by
    rw [Overwriting.writes_moves]
    exact fun f hf _ => Overwriting.timely Overwriting.find?_parent Overwriting.find?_child f hf
  have hinto : CommittedInto (Overwriting.session.run Overwriting.moves).directory
      Overwriting.parent.id Overwriting.committedChild.id :=
    ⟨Overwriting.committedChild, .self Overwriting.find?_child rfl, rfl⟩
  have hlatest : ∀ f ∈ (Overwriting.session.run Overwriting.moves).timeline.writes, f.key = [1] →
      CommittedInto (Overwriting.session.run Overwriting.moves).directory Overwriting.parent.id
        f.writer →
      ∀ {x : View}, (Overwriting.session.run Overwriting.moves).directory.find? f.writer = some x →
        x.begin ≤ Overwriting.committedChild.begin := by
    rw [Overwriting.writes_moves]
    exact fun f hf _ _ =>
      Overwriting.begin_le_child Overwriting.find?_parent Overwriting.find?_child f hf
  have hread := Session.get_ownWrite Overwriting.isFresh_session Overwriting.admits_moves
    Overwriting.find?_parent rfl (by decide) hlast htimely
  exact hread.2 Overwriting.find?_child hinto (by decide) hlast' hlatest

/-- Transactions do not always read their own last write, even if nobody has written the row since. -/
theorem not_get_ownWrite :
    ¬ ∀ (s : Session) (moves : List Move) (t : View) (key : Bytes) (w : Write), s.IsFresh →
      s.Admits Session.Permits moves → (s.run moves).directory.find? t.id = some t →
      t.phase = .active → t.begin < .latest →
      (s.run moves).timeline.writes.find? (fun f => f.key = key) = some w → w.writer = t.id →
      ((s.run moves).engine.get t key).1 =
        .ok (w.value.map fun value => { kind := .upsert, key, value }) := by
  intro h
  have hnewest : (Overwriting.session.run Overwriting.moves).timeline.writes.find?
      (fun f => f.key = [1]) = some Overwriting.parentWrite := by
    rw [Overwriting.writes_moves]
    decide
  have hread := h Overwriting.session Overwriting.moves Overwriting.parent [1]
    Overwriting.parentWrite Overwriting.isFresh_session Overwriting.admits_moves
    Overwriting.find?_parent rfl (by decide) hnewest rfl
  have hchild : ((Overwriting.session.run Overwriting.moves).engine.get Overwriting.parent [1]).1 =
      .ok (some { kind := .upsert, key := [1], value := [2] }) := by
    decide +kernel
  rw [hchild] at hread
  exact absurd hread (by decide)

end Multiversion
