import Multiversion.Proofs.Lineage.Path
import Multiversion.Store.TxnStore

/-!
# Orphans

Work whose writer stands below a transaction that has rolled back, seen from a transaction beside it.
The walk from the writer ends at the first element that has not plainly committed, so a rolled-back
element is found only if nothing below it ends the walk before.

* `Climb d l v below top` — the way up from `v` to `top`, past the elements `below` and beside the
  lineage;
* `View.Shelters` — the walk ends at this record and calls the work alive;
* `Sheltered` — among the elements of a climb one shelters the work, and all below it have plainly
  committed.

Main statements: below a rolled-back transaction work is dead exactly if nothing shelters it
(`Lineage.dead_iff_not_sheltered`); where cached timestamps are those of committed paths, only a
transaction that is still running shelters it (`Climb.sheltered_iff`).
-/

namespace Multiversion

/-- The way up from a transaction to an ancestor beside a lineage; `below` are the elements before `top`,
nearest first. -/
inductive Climb (d : Directory) (l : Lineage) : View → List View → View → Prop
  | here (v : View) : Climb d l v [] v
  | up {v u top : View} {below : List View} {parent : TxnId} (hparent : v.parent = some parent)
      (hfind : d.find? parent = some u) (hbeside : l.contains u.id = false)
      (hclimb : Climb d l u below top) : Climb d l v (v :: below) top

/-- A walk that comes to the record ends there and calls the work alive: the transaction is still running,
or a timestamp is cached on its record. -/
def View.Shelters (d : Directory) (v : View) : Prop :=
  (v.phase = .active ∧ d.isExpired v.id = false) ∨
    (v.phase = .committed ∧ v.globalCommit.isSome = true)

/-- One of the elements shelters the work, and all before it have committed without a cached timestamp. -/
inductive Sheltered (d : Directory) : List View → Prop
  | here {v : View} {above : List View} (h : v.Shelters d) : Sheltered d (v :: above)
  | above {v : View} {above : List View} (hphase : v.phase = .committed)
      (huncached : v.globalCommit = none) (h : Sheltered d above) : Sheltered d (v :: above)

namespace Sheltered

variable {d : Directory} {v : View} {above : List View}

theorem not_nil : ¬ Sheltered d [] := by
  rintro ⟨⟩

theorem cons_iff :
    Sheltered d (v :: above) ↔
      v.Shelters d ∨ (v.phase = .committed ∧ v.globalCommit = none ∧ Sheltered d above) := by
  constructor
  · intro h
    cases h with
    | here h => exact .inl h
    | above hphase huncached h => exact .inr ⟨hphase, huncached, h⟩
  · rintro (h | ⟨hphase, huncached, h⟩)
    · exact .here h
    · exact .above hphase huncached h

end Sheltered

namespace Climb

variable {d : Directory} {l : Lineage} {v top : View} {below us : List View}

/-- A climb stays on the path to the root. -/
theorem mem_of_path (h : Climb d l v below top) (hpath : Path d v us) : top = v ∨ top ∈ us := by
  induction h generalizing us with
  | here v => exact .inl rfl
  | up hparent hfind hbeside hclimb ih =>
      right
      cases hpath with
      | root hroot => simp [hparent] at hroot
      | child hparent' hfind' hpath' =>
          cases hparent.symm.trans hparent'
          cases hfind.symm.trans hfind'
          rcases ih hpath' with rfl | hmem
          · exact List.mem_cons_self
          · exact List.mem_cons_of_mem _ hmem

/-- Nothing is cached below a transaction that has rolled back. -/
theorem uncached (hd : d.Sound) (h : Climb d l v below top) (htop : top.phase = .rolledBack)
    {id : TxnId} (hv : d.find? id = some v) : v.globalCommit = none := by
  rcases Option.eq_none_or_eq_some v.globalCommit with hnone | ⟨g, hcached⟩
  · exact hnone
  · obtain ⟨us, hpath, hroot⟩ := hd.cached hv hcached
    obtain ⟨hcommitted, hancestors⟩ := committed_of_rootCommit hroot
    rcases h.mem_of_path hpath with rfl | hmem
    · simp [htop] at hcommitted
    · have hphase := hancestors top hmem
      simp [htop] at hphase

/-- **Where cached timestamps are those of committed paths** the work below a rolled-back transaction is
sheltered exactly if somewhere in between a transaction is still running, within its deadline, and
everything below that one has committed. -/
theorem sheltered_iff (hd : d.Sound) (h : Climb d l v below top) (htop : top.phase = .rolledBack)
    {id : TxnId} (hv : d.find? id = some v) :
    Sheltered d below ↔ ∃ passed u rest, below = passed ++ u :: rest ∧
      (∀ w ∈ passed, w.phase = .committed) ∧ u.phase = .active ∧ d.isExpired u.id = false := by
  induction h generalizing id with
  | here v => simp [Sheltered.not_nil]
  | @up v u top below parent hparent hfind hbeside hclimb ih =>
      have huncached : v.globalCommit = none :=
        (Climb.up hparent hfind hbeside hclimb).uncached hd htop hv
      rw [Sheltered.cons_iff, ih htop hfind]
      constructor
      · rintro ((⟨hactive, hlive⟩ | ⟨-, hcached⟩) | ⟨hphase, -, passed, u', rest, rfl, hpassed, hu'⟩)
        · exact ⟨[], v, below, rfl, by simp, hactive, hlive⟩
        · simp [huncached] at hcached
        · exact ⟨v :: passed, u', rest, rfl, by simpa [hphase] using hpassed, hu'⟩
      · rintro ⟨passed, u', rest, hsplit, hpassed, hactive, hlive⟩
        cases passed with
        | nil =>
            obtain ⟨rfl, -⟩ := List.cons.inj hsplit
            exact .inl (.inl ⟨hactive, hlive⟩)
        | cons w passed =>
            obtain ⟨rfl, hbelow⟩ := List.cons.inj hsplit
            rw [List.forall_mem_cons] at hpassed
            exact .inr ⟨hpassed.1, huncached, passed, u', rest, hbelow, hpassed.2, hactive, hlive⟩

end Climb

/-- Dead work is seen by nobody and stands in nobody's way. -/
theorem Fate.gone_of_isDead {f : Fate} (h : f.isDead = true) (reader : View) :
    f.isVisibleTo reader = false ∧ f.conflictsWith reader = false := by
  cases f with
  | rolledBack => exact ⟨rfl, rfl⟩
  | active id timedOut =>
      have htimedOut : timedOut = true := h
      subst htimedOut
      exact ⟨by simp [isVisibleTo], rfl⟩
  | _ => cases h

namespace Lineage

variable {d : Directory} {l : Lineage} {writer : TxnId} {below : List View} {top : View} {f : Fate}

theorem walk_isDead_iff {v : View} (hclimb : Climb d l v below top) (htop : top.phase = .rolledBack)
    {room : Nat} {under : Option Timestamp} (hbeside : under = none ∨ l.contains v.id = false)
    (h : l.walk d writer room under v = .ok f) : f.isDead = true ↔ ¬ Sheltered d below := by
  induction hclimb generalizing room under with
  | here v =>
      have hgo : (under.filter fun _ => l.contains v.id) = none := by
        rcases hbeside with rfl | hbeside <;> simp [*]
      rw [walk, hgo] at h
      simp only [htop] at h
      cases h
      simp [Fate.isDead, Sheltered.not_nil]
  | @up v u top below parent hparent hfind hu hclimb ih =>
      have hgo : (under.filter fun _ => l.contains v.id) = none := by
        rcases hbeside with rfl | hbeside <;> simp [*]
      rw [walk, hgo] at h
      rw [Sheltered.cons_iff]
      -- The walk ends at `v`, unless it has committed and nothing is cached on its record.
      cases hphase : v.phase with
      | rolledBack =>
          simp only [hphase] at h
          cases h
          simp [Fate.isDead, View.Shelters, hphase]
      | active =>
          simp only [hphase] at h
          cases h
          simp [Fate.isDead, View.Shelters, hphase]
      | committed =>
          cases hcached : v.globalCommit with
          | some g =>
              simp only [hphase, hcached] at h
              cases h
              simp [Fate.isDead, View.Shelters, hphase, hcached]
          | none =>
              cases hcommit : v.commit with
              | none => simp [hphase, hcached, hcommit] at h
              | some c =>
                  cases room with
                  | zero => simp [hphase, hcached, hcommit, hparent] at h
                  | succ room =>
                      simp only [hphase, hcached, hcommit, hparent,
                        Directory.get_eq_ok_iff.2 hfind] at h
                      rw [ih htop (.inr hu) h]
                      simp [View.Shelters, hphase, hcached]

/-- **Work below a rolled-back transaction is dead exactly if nothing shelters it.**  The writer and
everything up to the rolled-back element stand beside the lineage; if a walk reaches a verdict, the work is
gone for every reader, at every isolation level, exactly if the first element that is not plainly committed
has rolled back or missed its deadline. -/
theorem dead_iff_not_sheltered (hother : l.contains writer = false) {w : View}
    (hw : d.find? writer = some w) (hclimb : Climb d l w below top)
    (htop : top.phase = .rolledBack) (h : l.resolveWriter d writer = .ok f) :
    (f.isDead = true ∧ ∀ reader, f.isVisibleTo reader = false ∧ f.conflictsWith reader = false) ↔
      ¬ Sheltered d below := by
  have hwalk : l.walk d writer maxAncestors none w = .ok f := by
    rwa [resolveWriter, if_neg (by simp [hother]), Directory.get_eq_ok_iff.2 hw] at h
  rw [← walk_isDead_iff hclimb htop (.inl rfl) hwalk]
  exact ⟨And.left, fun hdead => ⟨hdead, fun reader => Fate.gone_of_isDead hdead reader⟩⟩

end Lineage

namespace OrphanedChild

def root : View := { id := ⟨1⟩, begin := ⟨1⟩ }

/-- A child that is still running when its parent rolls back. -/
def running : View := { id := ⟨2⟩, begin := ⟨2⟩, parent := some ⟨1⟩ }

/-- A child that commits before its parent rolls back. -/
def finished : View := { id := ⟨3⟩, begin := ⟨3⟩, parent := some ⟨1⟩ }

def reader : View := { id := ⟨5⟩, begin := ⟨5⟩, isolation := .readUncommitted }

/-- A transaction with two children rolls back after one of them has committed; then a reader begins. -/
def store : TxnStore :=
  [Change.begin root, .begin running, .begin finished, .commit ⟨3⟩ ⟨4⟩, .rollback ⟨1⟩,
    .begin reader].foldl (fun t change => (t.submit 0 change).2) (.single (.empty {}))

def rolledBackRoot : View := { root with phase := .rolledBack }

def committedChild : View := { finished with phase := .committed, commit := some ⟨4⟩ }

theorem find?_root : (store.directory 0).find? ⟨1⟩ = some rolledBackRoot := by
  decide +kernel

theorem find?_running : (store.directory 0).find? ⟨2⟩ = some running := by
  decide +kernel

theorem find?_finished : (store.directory 0).find? ⟨3⟩ = some committedChild := by
  decide +kernel

theorem load_reader : Lineage.load (store.directory 0) reader = .ok (.ofRoot reader) :=
  Lineage.load_root rfl

theorem resolveWriter_finished :
    (Lineage.ofRoot reader).resolveWriter (store.directory 0) ⟨3⟩ = .ok .rolledBack := by
  rw [Lineage.resolveWriter, if_neg (by decide), Directory.get_eq_ok_iff.2 find?_finished]
  show (Lineage.ofRoot reader).walk (store.directory 0) ⟨3⟩ (1023 + 1) none committedChild = _
  rw [Lineage.walk]
  simp [committedChild, finished, Directory.get_eq_ok_iff.2 find?_root]
  rfl

theorem resolveWriter_running :
    (Lineage.ofRoot reader).resolveWriter (store.directory 0) ⟨2⟩ = .ok (.active ⟨2⟩ false) := by
  have hlive : (store.directory 0).isExpired ⟨2⟩ = false := by
    decide +kernel
  rw [Lineage.resolveWriter, if_neg (by decide), Directory.get_eq_ok_iff.2 find?_running]
  show (Lineage.ofRoot reader).walk (store.directory 0) ⟨2⟩ maxAncestors none running = _
  rw [Lineage.walk]
  simp [running, hlive]

theorem climb {v : View} (hparent : v.parent = some ⟨1⟩) :
    Climb (store.directory 0) (.ofRoot reader) v [v] rolledBackRoot :=
  .up hparent find?_root (by decide) (.here rolledBackRoot)

end OrphanedChild

/-- Of two children of a transaction that has rolled back the one that has committed is dead, and the one
that is still running is sheltered by itself. -/
theorem dead_iff_not_sheltered_siblings :
    ¬ Sheltered (OrphanedChild.store.directory 0) [OrphanedChild.committedChild] ∧
      Sheltered (OrphanedChild.store.directory 0) [OrphanedChild.running] := by
  have hfinished := Lineage.dead_iff_not_sheltered (by decide) OrphanedChild.find?_finished
    (OrphanedChild.climb rfl) rfl OrphanedChild.resolveWriter_finished
  have hrunning := Lineage.dead_iff_not_sheltered (by decide) OrphanedChild.find?_running
    (OrphanedChild.climb rfl) rfl OrphanedChild.resolveWriter_running
  refine ⟨hfinished.1 ⟨rfl, fun reader => ⟨rfl, rfl⟩⟩, Classical.byContradiction fun h => ?_⟩
  exact absurd (hrunning.2 h).1 (by decide)

/-- **Work below a rolled-back transaction need not be dead**: a child that is still running shelters its
own. -/
theorem not_dead_of_rolledBack :
    ¬ ∀ (t : TxnStore) (now : Millis) (reader : View) (l : Lineage) (writer : TxnId) (w top : View)
      (below : List View) (f : Fate), Lineage.load (t.directory now) reader = .ok l →
      l.contains writer = false → (t.directory now).find? writer = some w →
      Climb (t.directory now) l w below top → top.phase = .rolledBack →
      l.resolveWriter (t.directory now) writer = .ok f →
      f.isDead = true ∧ ∀ other, f.isVisibleTo other = false ∧ f.conflictsWith other = false := by
  intro h
  have hdead := (h OrphanedChild.store 0 OrphanedChild.reader (.ofRoot OrphanedChild.reader) ⟨2⟩
    OrphanedChild.running OrphanedChild.rolledBackRoot [OrphanedChild.running] (.active ⟨2⟩ false)
    OrphanedChild.load_reader (by decide) OrphanedChild.find?_running (OrphanedChild.climb rfl) rfl
    OrphanedChild.resolveWriter_running).1
  exact absurd hdead (by decide)

end Multiversion
