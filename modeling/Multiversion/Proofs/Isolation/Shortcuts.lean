import Multiversion.Proofs.Isolation.RootCommit

/-!
# Deciding without cached timestamps

A timestamp that is cached on a cell or a record is the one of the writer's root, and the walk along the
parents stops there.  A reader below a parent that has committed may stand on the writer's path itself:
without the timestamp the walk would stop at the reader's own lineage, at the time at which the work came
into it, and that is what the reader is to compare with its begin.

* `Directory.uncached`, `Cell.uncached` — records and cells without cached timestamps;
* `Visibility.verdict` — whether a fresh view shows a cell, and whether to write over it is a conflict;
* `joinCommit` — the commit timestamp with which work came into a lineage;
* `Misled` — the reader believes a cached timestamp where the walk would have come to its own lineage at
  a time on the other side of its begin;
* `Spared` — the reader believes a cached timestamp where the walk would have been given up.

Main statements: `Lineage.walk_uncached_of_committed` — where the walk ends that believes no cached
timestamp; `Session.verdict_uncached_iff` — cached timestamps leave a verdict as it is exactly if the
reader is not misled by them, nor spared a walk that would fail.
-/

namespace Multiversion

/-- A record without the timestamp of its root. -/
def View.uncached (v : View) : View := { v with globalCommit := none }

/-- The records without the timestamps of their roots. -/
def Directory.uncached (d : Directory) : Directory where
  find? id := (d.find? id).map View.uncached
  isExpired := d.isExpired

/-- A cell without a commit timestamp. -/
def Cell.uncached (c : Cell) : Cell := { c with commit := none }

/-- What a fresh view of a reader decides about a cell: whether the reader sees it, and whether writing
over it would be a conflict. -/
def Visibility.verdict (d : Directory) (reader : View) (key : Bytes) (c : Cell) :
    Except TxnError (Bool × Bool) :=
  match load d reader with
  | .error e => .error e
  | .ok v =>
      match (v.fate d key c).1 with
      | .error e => .error e
      | .ok f => .ok (f.isVisibleTo reader, f.conflictsWith reader)

/-- The commit timestamp with which the work of a transaction came into a lineage: that of the element
directly below the first ancestor on the lineage. -/
def joinCommit (l : Lineage) : View → List View → Option Timestamp
  | _, [] => none
  | v, u :: us => if l.contains u.id then v.commit else joinCommit l u us

/-- There are more ancestors than `room`, and the first ones of this number are not on the lineage. -/
def Lineage.TooFar (l : Lineage) (room : Nat) (us : List View) : Prop :=
  room < us.length ∧ ∀ u ∈ us.take room, l.contains u.id = false

/-- A reader is told that the root of a cell's writer has committed at `g`, without a walk along the
writer's path `us`. -/
structure Believes (d : Directory) (reader : View) (c : Cell) (l : Lineage) (w : View)
    (us : List View) (g : Timestamp) : Prop where
  load : Lineage.load d reader = .ok l
  find : d.find? c.writer = some w
  path : Path d w us
  fate : l.fateOf d c = .ok (.committed g false)

/-- The walk would have come to the reader's own lineage, with a timestamp on the other side of the
reader's begin. -/
def Misled (d : Directory) (reader : View) (c : Cell) : Prop :=
  ∃ l w us g ts, Believes d reader c l w us g ∧ joinCommit l w us = some ts ∧
    ¬ (ts ≤ reader.begin ↔ g ≤ reader.begin)

/-- The walk would have been given up, since there are too many ancestors. -/
def Spared (d : Directory) (reader : View) (c : Cell) : Prop :=
  ∃ l w us g, Believes d reader c l w us g ∧ l.TooFar maxAncestors us

namespace Directory

variable {d : Directory}

theorem get_uncached (d : Directory) (id : TxnId) :
    d.uncached.get id = (d.get id).map View.uncached := by
  simp only [get, uncached]
  cases d.find? id <;> rfl

/-- Without cached timestamps nothing can be wrong with them. -/
theorem Sound.uncached (hd : d.Sound) : d.uncached.Sound where
  keyed {id v} hv := by
    obtain ⟨u, hu, rfl⟩ := Option.map_eq_some_iff.1 hv
    have hkeyed := hd.keyed hu
    exact hkeyed
  stamped {id v} hv hphase := by
    obtain ⟨u, hu, rfl⟩ := Option.map_eq_some_iff.1 hv
    have hstamped := hd.stamped hu hphase
    exact hstamped
  cached {id v g} hv hg := by
    obtain ⟨u, -, rfl⟩ := Option.map_eq_some_iff.1 hv
    cases hg

end Directory

namespace Lineage

variable {d : Directory} {l : Lineage} {v : View} {us : List View}

theorem collect_uncached (d : Directory) (subject : TxnId) (room : Nat) (ids : List TxnId)
    (parent : Option TxnId) :
    collect d.uncached subject room ids parent = collect d subject room ids parent := by
  fun_induction collect d subject room ids parent with
  | case1 room ids => simp [collect]
  | case2 ids parent => rfl
  | case3 ids room parent hseen => rw [collect, if_pos hseen]
  | case4 ids room parent hfresh e hget =>
      rw [collect, if_neg hfresh, Directory.get_uncached, hget]
      rfl
  | case5 ids room parent hfresh u hget ih =>
      rw [collect, if_neg hfresh, Directory.get_uncached, hget]
      exact ih

/-- A lineage does not depend on cached timestamps. -/
theorem load_uncached (d : Directory) (reader : View) : load d.uncached reader = load d reader := by
  rw [load, load, collect_uncached]

/-- A walk that believes no cached timestamp ends as the other one does, if that one has not ended at a
cached timestamp. -/
theorem walk_uncached (l : Lineage) (d : Directory) (writer : TxnId) (room : Nat)
    (below : Option Timestamp) (v : View) :
    l.walk d.uncached writer room below v.uncached = l.walk d writer room below v ∨
      ∃ g, l.walk d writer room below v = .ok (.committed g false) := by
  fun_induction walk l d writer room below v with
  | case1 room below v commit hstop =>
      left
      rw [walk]
      simp [View.uncached, hstop]
  | case2 room below v hgo hphase =>
      left
      rw [walk]
      simp [View.uncached, hgo, hphase]
  | case3 room below v hgo hphase =>
      left
      rw [walk]
      simp [View.uncached, hgo, hphase, Directory.uncached]
  | case4 room below v hgo hphase g hcached => exact .inr ⟨g, rfl⟩
  | case5 room below v hgo hphase hcommit hnone =>
      left
      rw [walk]
      simp [View.uncached, hgo, hphase, hcommit]
  | case6 room below v hgo hphase commit hparent hcommit hnone =>
      left
      rw [walk]
      simp [View.uncached, hgo, hphase, hcommit, hparent]
  | case7 below v hgo hphase commit parent hparent hcommit hnone =>
      left
      rw [walk]
      simp [View.uncached, hgo, hphase, hcommit, hparent]
  | case8 below v hgo hphase commit parent hparent hcommit hnone room e hget =>
      left
      rw [walk]
      simp [View.uncached, hgo, hphase, hcommit, hparent, Directory.get_uncached, hget, Except.map]
  | case9 below v hgo hphase commit parent hparent hcommit hnone room u hget ih =>
      rw [walk]
      simpa [View.uncached, hgo, hphase, hcommit, hparent, Directory.get_uncached, hget, Except.map]
        using ih

theorem fateOf_of_uncached (l : Lineage) (d : Directory) (c : Cell) :
    l.fateOf d c.uncached = l.resolveWriter d c.writer := by
  rw [fateOf, show c.uncached.commit = none from rfl, ite_self]
  rfl

/-- Without cached timestamps a fate is the same, if it was not read off one. -/
theorem fateOf_uncached (l : Lineage) (d : Directory) (c : Cell) :
    l.fateOf d.uncached c.uncached = l.fateOf d c ∨ ∃ g, l.fateOf d c = .ok (.committed g false) := by
  rw [fateOf_of_uncached, resolveWriter, fateOf, resolveWriter]
  by_cases hown : l.contains c.writer = true
  · rw [if_pos hown, if_pos hown, if_pos hown]
    exact .inl rfl
  · rw [if_neg hown, if_neg hown, if_neg hown, Directory.get_uncached]
    cases c.commit with
    | some g => exact .inr ⟨g, rfl⟩
    | none =>
        cases d.get c.writer with
        | error e => exact .inl rfl
        | ok w => exact walk_uncached l d c.writer maxAncestors none w

theorem tooFar_cons {u : View} {room : Nat} (hu : l.contains u.id = false) :
    l.TooFar (room + 1) (u :: us) ↔ l.TooFar room us := by
  simp [TooFar, hu]

/-- **Where a walk ends that believes no cached timestamp**, from a transaction that stands beside the
lineage and has committed with all its ancestors. -/
theorem walk_uncached_of_committed (hd : d.Sound) (writer : TxnId) (hpath : Path d v us)
    (hv : d.find? v.id = some v) (hbeside : l.contains v.id = false) {g : Timestamp}
    (hroot : rootCommit v us = some g) (room : Nat) (below : Option Timestamp) :
    (l.TooFar room us ∧ ∃ e, l.walk d.uncached writer room below v.uncached = .error e) ∨
      (¬ l.TooFar room us ∧ ∃ a ts, joinCommit l v us = some ts ∧ l.contains a = true ∧
        Ascends d v.id a ∧ l.walk d.uncached writer room below v.uncached = .ok (.committedInto a ts)) ∨
      (¬ l.TooFar room us ∧ joinCommit l v us = none ∧
        ∃ via, l.walk d.uncached writer room below v.uncached = .ok (.committed g via)) := by
  induction hpath generalizing room below with
  | @root v hparent =>
      simp only [rootCommit, Option.ite_none_right_eq_some] at hroot
      refine .inr (.inr ⟨by simp [TooFar], rfl, below.isSome, ?_⟩)
      rw [walk]
      simp [View.uncached, hbeside, hroot.1, hroot.2, hparent]
  | @child v u us parent hparent hfind hpath ih =>
      simp only [rootCommit, Option.ite_none_right_eq_some] at hroot
      obtain ⟨hphase, hroot⟩ := hroot
      obtain ⟨c, hc⟩ := hd.stamped hv hphase
      have hkeyed : u.id = parent := hd.keyed hfind
      subst hkeyed
      cases room with
      | zero =>
          refine .inl ⟨by simp [TooFar], .invalidOperation (.endlessLineage writer), ?_⟩
          rw [walk]
          simp [View.uncached, hbeside, hphase, hc, hparent]
      | succ room =>
          have hget : d.uncached.get u.id = .ok u.uncached := by
            rw [Directory.get_uncached, Directory.get_eq_ok_iff.2 hfind]
            rfl
          have hstep : l.walk d.uncached writer (room + 1) below v.uncached =
              l.walk d.uncached writer room (some c) u.uncached := by
            rw [walk]
            simp [View.uncached, hbeside, hphase, hc, hparent, hget]
          rw [hstep]
          cases hu : l.contains u.id with
          | true =>
              refine .inr (.inl ⟨by simp [TooFar, hu], u.id, c, by simp [joinCommit, hu, hc], hu,
                .step hv hparent (.refl _), ?_⟩)
              rw [walk]
              simp [View.uncached, Option.filter, hu]
          | false =>
              rw [tooFar_cons hu, show joinCommit l v (u :: us) = joinCommit l u us by
                simp [joinCommit, hu]]
              rcases ih hfind hu hroot room (some c) with hfar | ⟨hnear, a, ts, hjoin, ha, hup, hwalk⟩ |
                hend
              · exact .inl hfar
              · exact .inr (.inl ⟨hnear, a, ts, hjoin, ha, .step hv hparent hup, hwalk⟩)
              · exact .inr (.inr hend)

end Lineage

namespace Believes

variable {d : Directory} {reader w : View} {l : Lineage} {us : List View} {c : Cell} {g : Timestamp}

/-- A reader has one lineage, and a writer one path. -/
theorem unique (h : Believes d reader c l w us g) {l' : Lineage} {w' : View} {us' : List View}
    {g' : Timestamp} (h' : Believes d reader c l' w' us' g') :
    l' = l ∧ w' = w ∧ us' = us ∧ g' = g := by
  cases h.load.symm.trans h'.load
  cases h.find.symm.trans h'.find
  cases h.path.unique h'.path
  cases h.fate.symm.trans h'.fate
  exact ⟨rfl, rfl, rfl, rfl⟩

theorem misled_iff (h : Believes d reader c l w us g) :
    Misled d reader c ↔
      ∃ ts, joinCommit l w us = some ts ∧ ¬ (ts ≤ reader.begin ↔ g ≤ reader.begin) := by
  refine ⟨?_, fun ⟨ts, hjoin⟩ => ⟨l, w, us, g, ts, h, hjoin⟩⟩
  rintro ⟨l', w', us', g', ts, h', hjoin⟩
  obtain ⟨rfl, rfl, rfl, rfl⟩ := h.unique h'
  exact ⟨ts, hjoin⟩

theorem spared_iff (h : Believes d reader c l w us g) :
    Spared d reader c ↔ l.TooFar maxAncestors us := by
  refine ⟨?_, fun hfar => ⟨l, w, us, g, h, hfar⟩⟩
  rintro ⟨l', w', us', g', h', hfar⟩
  obtain ⟨rfl, rfl, rfl, rfl⟩ := h.unique h'
  exact hfar

end Believes

namespace Visibility

variable {d : Directory} {reader : View} {l : Lineage}

/-- A verdict is what the fate means to the reader. -/
theorem verdict_of_load (hd : d.Sound) (hload : Lineage.load d reader = .ok l) (key : Bytes)
    (c : Cell) :
    verdict d reader key c =
      (l.fateOf d c).map fun f => (f.isVisibleTo reader, f.conflictsWith reader) := by
  have hview : load d reader = .ok { lineage := l } := by
    simp [load, hload]
  obtain ⟨-, hfaithful⟩ := faithful_load hview
  obtain ⟨hanswer, -⟩ := fate_spec hd hfaithful key c
  simp only [verdict, hview, hanswer]
  cases l.fateOf d c <;> rfl

theorem verdict_of_load_error {e : TxnError} (hload : Lineage.load d reader = .error e) (key : Bytes)
    (c : Cell) : verdict d reader key c = .error e := by
  simp [verdict, load, hload]

/-- Work that came into a lineage above the reader, and work whose root has committed, mean the same to
the reader exactly if it has begun after both or before both. -/
theorem judgement_eq_iff {a : TxnId} {ts g : Timestamp} (ha : a ≠ reader.id) :
    ((Fate.committedInto a ts).isVisibleTo reader, (Fate.committedInto a ts).conflictsWith reader) =
        ((Fate.committed g false).isVisibleTo reader, (Fate.committed g false).conflictsWith reader) ↔
      (ts ≤ reader.begin ↔ g ≤ reader.begin) := by
  have hlt : ∀ t : Timestamp, reader.begin < t ↔ ¬ t ≤ reader.begin := fun t => UInt64.not_le.symm
  by_cases hts : ts ≤ reader.begin <;> by_cases hg : g ≤ reader.begin <;>
    simp [Fate.isVisibleTo, Fate.conflictsWith, ha, hlt, hts, hg]

/-- A timestamp that is not found at the root by walking is that of the root all the same. -/
theorem committedAt_of_fateOf (hd : d.Sound) {c : Cell} {g : Timestamp}
    (hcached : ∀ ts, c.commit = some ts → CommittedAt d c.writer ts)
    (h : l.fateOf d c = .ok (.committed g false)) :
    l.contains c.writer = false ∧ CommittedAt d c.writer g := by
  unfold Lineage.fateOf at h
  cases hown : l.contains c.writer with
  | true => simp [hown, Lineage.resolveWriter] at h
  | false =>
      refine ⟨rfl, ?_⟩
      rw [if_neg (by simp [hown])] at h
      cases hcommit : c.commit with
      | some ts =>
          rw [hcommit] at h
          cases h
          exact hcached g hcommit
      | none =>
          rw [hcommit] at h
          exact Lineage.holds_of_resolveWriter hd h

/-- **Where a cached timestamp is believed** it changes nothing, if the reader is neither misled nor
spared. -/
theorem verdict_eq_iff_of_believes (hd : d.Sound) (hreader : d.find? reader.id = some reader)
    (hactive : reader.phase = .active) (key : Bytes) {c : Cell}
    (hcached : ∀ ts, c.commit = some ts → CommittedAt d c.writer ts) {w : View} {us : List View}
    {g : Timestamp} (h : Believes d reader c l w us g) :
    verdict d.uncached reader key c.uncached = verdict d reader key c ↔
      ¬ Misled d reader c ∧ ¬ Spared d reader c := by
  obtain ⟨hbeside, hcommitted⟩ := committedAt_of_fateOf hd hcached h.fate
  obtain ⟨w', us', hw', hpath', hroot⟩ := id hcommitted
  cases h.find.symm.trans hw'
  cases h.path.unique hpath'
  have hkeyed : w.id = c.writer := hd.keyed h.find
  have hwalk : l.fateOf d.uncached c.uncached =
      l.walk d.uncached c.writer maxAncestors none w.uncached := by
    rw [Lineage.fateOf_of_uncached, Lineage.resolveWriter, if_neg (by simp [hbeside]),
      Directory.get_uncached, Directory.get_eq_ok_iff.2 h.find]
    rfl
  rw [verdict_of_load hd h.load, verdict_of_load hd.uncached
    ((Lineage.load_uncached d reader).trans h.load), h.misled_iff, h.spared_iff, hwalk, h.fate]
  rcases Lineage.walk_uncached_of_committed hd c.writer h.path (hkeyed ▸ h.find) (hkeyed ▸ hbeside)
    hroot maxAncestors none with
    ⟨hfar, e, hend⟩ | ⟨hnear, a, ts, hjoin, -, hup, hend⟩ | ⟨hnear, hjoin, via, hend⟩
  · simp [hend, hfar, Except.map]
  · -- All that stands above the work has committed, so the reader does not.
    have hother : a ≠ reader.id := by
      rintro rfl
      have hphase := hcommitted.committed_of_ascends hd (hkeyed ▸ hup) hreader
      simp [hactive] at hphase
    rw [hend]
    simp only [hnear, hjoin, not_false_eq_true, and_true, Option.some.injEq, exists_eq_left',
      Classical.not_not]
    rw [← judgement_eq_iff hother]
    show Except.ok _ = Except.ok _ ↔ _
    rw [Except.ok.injEq]
  · simp [hend, hnear, hjoin, Except.map, Fate.isVisibleTo, Fate.conflictsWith]

/-- **Cached timestamps leave a verdict as it is exactly if the reader is neither misled nor spared.** -/
theorem verdict_eq_iff (hd : d.Sound) (hreader : d.find? reader.id = some reader)
    (hactive : reader.phase = .active) (key : Bytes) {c : Cell}
    (hcached : ∀ ts, c.commit = some ts → CommittedAt d c.writer ts) :
    verdict d.uncached reader key c.uncached = verdict d reader key c ↔
      ¬ Misled d reader c ∧ ¬ Spared d reader c := by
  by_cases hbelieves : ∃ l w us g, Believes d reader c l w us g
  · obtain ⟨l, w, us, g, h⟩ := hbelieves
    exact verdict_eq_iff_of_believes hd hreader hactive key hcached h
  · have hsame : verdict d.uncached reader key c.uncached = verdict d reader key c := by
      cases hload : Lineage.load d reader with
      | error e =>
          rw [verdict_of_load_error hload,
            verdict_of_load_error ((Lineage.load_uncached d reader).trans hload)]
      | ok l =>
          rw [verdict_of_load hd hload,
            verdict_of_load hd.uncached ((Lineage.load_uncached d reader).trans hload)]
          refine congrArg _ ((l.fateOf_uncached d c).resolve_right ?_)
          rintro ⟨g, hfate⟩
          obtain ⟨-, w, us, hw, hpath, -⟩ := committedAt_of_fateOf hd hcached hfate
          exact hbelieves ⟨l, w, us, g, hload, hw, hpath, hfate⟩
    refine iff_of_true hsame ⟨?_, ?_⟩
    · rintro ⟨l, w, us, g, ts, h, -⟩
      exact hbelieves ⟨l, w, us, g, h⟩
    · rintro ⟨l, w, us, g, h, -⟩
      exact hbelieves ⟨l, w, us, g, h⟩

end Visibility

/-- **When cached timestamps make no difference.**  After every honest session, for every recorded
transaction that is active, and for every stored cell: what a fresh view decides about the cell, whether
the transaction sees it and whether to write over it is a conflict, is the same without all cached
timestamps, unless the transaction is misled by one: it is believed where the walk would have come to the
transaction's own lineage, at a time on the other side of its begin.  Without them nothing at all is
decided where the walk would have been given up, and there only. -/
theorem Session.verdict_uncached_iff {s : Session} (hs : s.IsFresh) {moves : List Move}
    (hmoves : ∀ m ∈ moves, m.Honest) {reader : View}
    (hreader : (s.run moves).directory.find? reader.id = some reader)
    (hactive : reader.phase = .active) {key : Bytes} {c : Cell}
    (hstored : c ∈ (s.run moves).engine.cells.versions key) :
    Visibility.verdict (s.run moves).directory.uncached reader key c.uncached =
        Visibility.verdict (s.run moves).directory reader key c ↔
      ¬ Misled (s.run moves).directory reader c ∧ ¬ Spared (s.run moves).directory reader c := by
  have hcells : (s.run moves).engine.cells.Rooted (s.run moves).directory := by
    refine rooted_run hs.sound (fun key c hc => ?_) hmoves
    rw [engine, hs.timeline.engine.unwritten key] at hc
    exact absurd hc List.not_mem_nil
  exact Visibility.verdict_eq_iff (sound_run hs.sound hmoves).records hreader hactive key
    (hcells key c hstored)

namespace NestedReader

/-- A child of the transaction that begins first; it writes. -/
def child : View := { id := ⟨2⟩, begin := ⟨2⟩, parent := some ⟨1⟩ }

/-- Another child, which has begun after the commit of the one that writes. -/
def reader : View := { id := ⟨4⟩, begin := ⟨4⟩, parent := some ⟨1⟩ }

/-- A reader that has begun after the commit of the root. -/
def outsider : View := { id := ⟨6⟩, begin := ⟨6⟩ }

/-- A child commits into its parent, then another one begins, then the parent commits; and an outsider
has the timestamp of the root cached on the cell. -/
def moves : List Move :=
  [.step (.begin { id := ⟨1⟩, begin := ⟨1⟩ }), .step (.begin child),
    .step (.applyBatch { name := "r" } false child [{ kind := .upsert, key := [1], value := [9] }]),
    .step (.commit ⟨2⟩ ⟨3⟩), .step (.begin reader), .step (.commit ⟨1⟩ ⟨5⟩), .step (.begin outsider),
    .step (.get outsider [1])]

def cell : Cell := { timestamp := ⟨2⟩, writer := ⟨2⟩, value := some [9], commit := some ⟨5⟩ }

theorem honest_moves : ∀ m ∈ moves, m.Honest := by
  simp [moves, Move.Honest]

theorem find?_reader :
    (CachedRoot.session.run moves).directory.find? reader.id = some reader := by
  decide +kernel

theorem cell_mem : cell ∈ (CachedRoot.session.run moves).engine.cells.versions [1] := by
  decide +kernel

/-- The reader is refused what it would see without the cached timestamp. -/
theorem verdict_ne :
    Visibility.verdict (CachedRoot.session.run moves).directory.uncached reader [1] cell.uncached ≠
      Visibility.verdict (CachedRoot.session.run moves).directory reader [1] cell := by
  have huncached : (Visibility.verdict (CachedRoot.session.run moves).directory.uncached reader [1]
      cell.uncached).toOption = some (true, false) := by
    decide +kernel
  have hcached : (Visibility.verdict (CachedRoot.session.run moves).directory reader [1]
      cell).toOption = some (false, true) := by
    decide +kernel
  intro heq
  simp [heq, hcached] at huncached

/-- The record of the writer in the end. -/
def committedChild : View := { child with phase := .committed, commit := some ⟨3⟩ }

/-- The record of its parent in the end. -/
def root : View := { id := ⟨1⟩, begin := ⟨1⟩, phase := .committed, commit := some ⟨5⟩ }

/-- The writer has one ancestor only. -/
theorem not_spared : ¬ Spared (CachedRoot.session.run moves).directory reader cell := by
  have hchild : (CachedRoot.session.run moves).directory.find? cell.writer = some committedChild := by
    decide +kernel
  have hroot : (CachedRoot.session.run moves).directory.find? ⟨1⟩ = some root := by
    decide +kernel
  have hpath : Path (CachedRoot.session.run moves).directory committedChild [root] :=
    .child rfl hroot (.root rfl)
  rintro ⟨l, w, us, g, h, hfar, -⟩
  obtain rfl : w = committedChild := Option.some.inj (h.find.symm.trans hchild)
  obtain rfl : us = [root] := h.path.unique hpath
  simp [maxAncestors] at hfar

end NestedReader

/-- A reader below a committed parent, misled by the timestamp that is cached on a sibling's cell. -/
theorem verdict_uncached_iff_nestedReader :
    (CachedRoot.session.run NestedReader.moves).directory.find? NestedReader.reader.id =
        some NestedReader.reader ∧
      NestedReader.cell ∈ (CachedRoot.session.run NestedReader.moves).engine.cells.versions [1] ∧
      Misled (CachedRoot.session.run NestedReader.moves).directory NestedReader.reader
        NestedReader.cell := by
  have hiff := Session.verdict_uncached_iff CachedRoot.isFresh_session NestedReader.honest_moves
    NestedReader.find?_reader rfl NestedReader.cell_mem
  refine ⟨NestedReader.find?_reader, NestedReader.cell_mem, Classical.byContradiction fun hmisled => ?_⟩
  exact NestedReader.verdict_ne (hiff.2 ⟨hmisled, NestedReader.not_spared⟩)

/-- **Cached timestamps can change what a nested reader sees.** -/
theorem not_verdict_uncached :
    ¬ ∀ (s : Session) (moves : List Move) (reader : View) (key : Bytes) (c : Cell), s.IsFresh →
      (∀ m ∈ moves, m.Honest) → (s.run moves).directory.find? reader.id = some reader →
      reader.phase = .active → c ∈ (s.run moves).engine.cells.versions key →
      Visibility.verdict (s.run moves).directory.uncached reader key c.uncached =
        Visibility.verdict (s.run moves).directory reader key c := by
  intro h
  exact NestedReader.verdict_ne (h _ _ _ _ _ CachedRoot.isFresh_session NestedReader.honest_moves
    NestedReader.find?_reader rfl NestedReader.cell_mem)

end Multiversion
