import Multiversion.Engine
import Multiversion.Proofs.Resolution.Schedules

/-!
# Slow walks

A reader that had to walk to the root of a committed writer asks the resolver to cache the root's timestamp
on the writer.  It does so exactly if the walk was slow to its end: a walk that ends at a timestamp cached on
an ancestor counts as a short one, however many parents it has passed before.

* `Lineage.uncached_of_walk`, `Lineage.viaParents_of_uncached` — when a walk counts as slow;
* `Resolver.Ready.settled_drain` — what is queued is carried out in the end;
* `Engine.examineAndSettle` — a view examines a cell, and the background work is drained.

Main statement: `Engine.cached_after_examine_iff` — after a nested writer was seen to have committed for the
first time, the root's timestamp is cached on it exactly if nothing was cached on any of its ancestors, or if
it was asked for already.
-/

namespace Multiversion

namespace Lineage

variable {d : Directory} {l : Lineage} {writer : TxnId} {room : Nat} {below : Option Timestamp}
variable {v : View} {c : Timestamp}

/-- A slow walk has passed records without a cached timestamp only, and has come to the root that the
resolver finds. -/
theorem uncached_of_walk (h : l.walk d writer room below v = .ok (.committed c true)) (subject : TxnId) :
    v.phase = .committed ∧ v.globalCommit = none ∧
      (∃ us, Path d v us ∧ ∀ u ∈ us, u.globalCommit = none) ∧
      ∃ root, Request.rootOf d subject room v = .ok (some root) ∧ root.commit = some c := by
  fun_induction walk l d writer room below v with
  | case6 room below v hgo hphase commit hparent hcommit hnone =>
      simp only [Except.ok.injEq, Fate.committed.injEq] at h
      obtain ⟨rfl, -⟩ := h
      refine ⟨hphase, hnone, ⟨[], .root hparent, by simp⟩, v, ?_, hcommit⟩
      unfold Request.rootOf
      simp [hparent]
  | case9 below v hgo hphase commit parent hparent hcommit hnone room u hget ih =>
      obtain ⟨hphase', hnone', ⟨us, hpath, huncached⟩, root, hroot, hcommit'⟩ := ih h
      have hfind := Directory.get_eq_ok_iff.1 hget
      refine ⟨hphase, hnone, ⟨u :: us, .child hparent hfind hpath, ?_⟩, root, ?_, hcommit'⟩
      · exact List.forall_mem_cons.2 ⟨hnone', huncached⟩
      · unfold Request.rootOf
        simp [hparent, hget, hphase', hroot]
  | _ => cases h

/-- A walk along records without a cached timestamp is slow, unless it ends where it has begun. -/
theorem viaParents_of_uncached {via : Bool} (h : l.walk d writer room below v = .ok (.committed c via))
    {us : List View} (hpath : Path d v us) (hnone : v.globalCommit = none)
    (huncached : ∀ u ∈ us, u.globalCommit = none) (hmoved : below.isSome ∨ us ≠ []) : via = true := by
  fun_induction walk l d writer room below v generalizing us with
  | case4 room below v hgo hphase root hcached => simp [hcached] at hnone
  | case6 room below v hgo hphase commit hparent hcommit hcached =>
      cases h
      cases hpath with
      | root => simpa using hmoved
      | child hsome => simp [hparent] at hsome
  | case9 below v hgo hphase commit parent hparent hcommit hcached room u hget ih =>
      cases hpath with
      | root hroot => simp [hparent] at hroot
      | child hsome hfind hrest =>
          cases hparent.symm.trans hsome
          cases (Directory.get_eq_ok_iff.1 hget).symm.trans hfind
          obtain ⟨hfirst, hothers⟩ := List.forall_mem_cons.1 huncached
          exact ih h hrest hfirst hothers (.inl rfl)
  | _ => cases h

theorem phase_of_walk {via : Bool} (h : l.walk d writer room below v = .ok (.committed c via)) :
    v.phase = .committed := by
  unfold walk at h
  split at h
  · cases h
  · split at h
    · cases h
    · cases h
    · assumption

/-- A writer whose fate is decided by others was found by a walk. -/
theorem walk_of_resolveWriter {via : Bool} (h : l.resolveWriter d writer = .ok (.committed c via))
    (hv : d.find? writer = some v) :
    l.contains writer = false ∧ l.walk d writer maxAncestors none v = .ok (.committed c via) := by
  unfold resolveWriter at h
  split at h
  · cases h
  · rename_i hforeign
    rw [Directory.get_eq_ok_iff.2 hv] at h
    exact ⟨by simpa using hforeign, h⟩

/-- A nested transaction without a cached timestamp was found by a slow walk exactly if nothing is cached
above it. -/
theorem viaParents_iff {via : Bool} (h : l.resolveWriter d writer = .ok (.committed c via))
    (hv : d.find? writer = some v) (hparent : v.parent.isSome) (hnone : v.globalCommit = none) :
    via = true ↔ ∃ us, Path d v us ∧ ∀ u ∈ us, u.globalCommit = none := by
  obtain ⟨-, hwalk⟩ := walk_of_resolveWriter h hv
  constructor
  · rintro rfl
    exact (uncached_of_walk hwalk writer).2.2.1
  · rintro ⟨us, hpath, huncached⟩
    refine viaParents_of_uncached hwalk hpath hnone huncached (.inr ?_)
    rintro rfl
    cases hpath with
    | root hroot => simp [hroot] at hparent

/-- What a slow walk has found is still to be cached. -/
theorem dueTimestamp_of_slow (h : l.resolveWriter d writer = .ok (.committed c true))
    (hv : d.find? writer = some v) (hparent : v.parent.isSome) :
    d.dueTimestamp writer v = some c := by
  obtain ⟨-, hwalk⟩ := walk_of_resolveWriter h hv
  obtain ⟨hphase, hnone, -, root, hroot, hcommit⟩ := uncached_of_walk hwalk writer
  simp [Directory.dueTimestamp, hphase, hparent, hnone, hroot, hcommit]

end Lineage

namespace Resolver

variable {v : Resolver} {t : TxnStore} {now : Millis}

/-- **Draining** carries out what was queued and what has been submitted since. -/
theorem Ready.settled_drain (hv : v.Ready) (ht : t.Healthy) (rs : List Request) :
    t.Settled now ((v.submitAll rs).drain t now).2 (v.queue ++ rs) := by
  obtain ⟨done, hsettled, hmembers⟩ := ((hv.underway ht).submitAll rs).runMany rfl
  exact hsettled.congr fun r => (hmembers r).symm

/-- What is queued after requests have been submitted. -/
theorem Ready.mem_queue_submitAll (hv : v.Ready) (rs : List Request) (r : Request) :
    r ∈ (v.submitAll rs).queue ↔ r ∈ v.queue ++ rs := by
  -- The queue does not depend on the store, so any will do.
  have hempty : (TxnStore.single (.empty {})).Healthy := fun _ => ⟨rfl, rfl⟩
  have hunderway : Underway 0 _ v.queue [] v _ := hv.underway hempty
  simpa using ((hunderway.submitAll rs).pending r).symm

end Resolver

/-- A view that examines a cell of a writer for the first time leaves the request that the writer's fate calls
for. -/
theorem Visibility.fate_of_unseen {d : Directory} {w : Visibility} {cell : Cell} {f : Fate}
    (hfirst : w.memory[cell.writer]? = none) (hcell : cell.commit = none)
    (hfate : w.lineage.resolveWriter d cell.writer = .ok f) (key : Bytes) :
    (w.fate d key cell).1 = .ok f ∧
      (w.fate d key cell).2.outbox.requests = w.outbox.requests ++ (requestFor cell.writer f).toList := by
  have hcached : w.cachedCommit cell = none := by
    simp [cachedCommit, hcell]
  simp [fate, hcached, learn, hfirst, hfate, post, handOver]

namespace Engine

/-- A view examines a cell, and the background work is drained. -/
def examineAndSettle (e : Engine) (w : Visibility) (key : Bytes) (cell : Cell) : Engine :=
  (e.examine w fun d v => v.fate d key cell).2.2.2.settle

variable {e : Engine} {v : Resolver}

theorem resolver_examine (hresolver : e.resolver = some v) (w : Visibility) (key : Bytes) (cell : Cell) :
    (e.examine w fun d v => v.fate d key cell).2.2.2.resolver =
      some (v.submitAll (w.fate e.directory key cell).2.outbox.requests) := by
  simp [examine, Engine.post, request, hresolver]

/-- What the resolver had to do already is carried out, and what the view asks for. -/
theorem settled_examineAndSettle (hresolver : e.resolver = some v) (hv : v.Ready) (hstore : e.store.Healthy)
    (w : Visibility) (key : Bytes) (cell : Cell) :
    e.store.Settled e.now (e.examineAndSettle w key cell).store
      (v.queue ++ (w.fate e.directory key cell).2.outbox.requests) := by
  have hdrained : (e.examineAndSettle w key cell).store =
      ((v.submitAll (w.fate e.directory key cell).2.outbox.requests).drain e.store e.now).2 := by
    simp [examineAndSettle, settle, examine, Engine.post, request, hresolver, Engine.now]
  rw [hdrained]
  exact hv.settled_drain hstore _

/-- **When a slow walk is cached.**  A view examines for the first time a cell without a cached timestamp; its
writer is nested, without a cached timestamp either, and turns out to have committed.  Then the writer stands
in the resolver's queue exactly if nothing is cached on any of its ancestors, or if it was asked for already.
If the store takes the records, draining the resolver caches the commit timestamp on the writer exactly then,
and otherwise leaves the writer's record as it is. -/
theorem cached_after_examine_iff {w : Visibility} {cell : Cell} {entry : Entry} {c : Timestamp} {via : Bool}
    (hresolver : e.resolver = some v) (hv : v.Ready) (hfirst : w.memory[cell.writer]? = none)
    (hcell : cell.commit = none) (hentry : e.store.find? cell.writer = some entry)
    (hparent : entry.view.parent.isSome) (hnone : entry.view.globalCommit = none)
    (hfate : w.lineage.resolveWriter e.directory cell.writer = .ok (.committed c via)) (key : Bytes) :
    let request : Request := ⟨.globalCommit, cell.writer⟩
    let uncached := ∃ us, Path e.directory entry.view us ∧ ∀ u ∈ us, u.globalCommit = none
    let asked := request ∈ v.queue ++ w.outbox.requests
    (w.fate e.directory key cell).1 = .ok (.committed c via) ∧
      (∃ v', (e.examine w fun d v => v.fate d key cell).2.2.2.resolver = some v' ∧
        (request ∈ v'.queue ↔ uncached ∨ asked)) ∧
      (e.store.Healthy → ∃ entry', (e.examineAndSettle w key cell).store.find? cell.writer = some entry' ∧
        (entry'.view.globalCommit = some c ↔
          uncached ∨ asked ∧ e.directory.dueTimestamp cell.writer entry.view = some c) ∧
        (¬ (uncached ∨ asked) → entry' = entry)) := by
  intro request uncached asked
  have hview : e.directory.find? cell.writer = some entry.view := by
    rw [directory, TxnStore.directory_find?, hentry, Option.map_some]
  have hslow : via = true ↔ uncached := Lineage.viaParents_iff hfate hview hparent hnone
  obtain ⟨hanswer, hrequests⟩ := Visibility.fate_of_unseen hfirst hcell hfate key
  -- The view asks for the timestamp exactly after a slow walk.
  have hmade : ∀ r, r ∈ v.queue ++ (w.fate e.directory key cell).2.outbox.requests ↔
      (r = request ∧ uncached) ∨ r ∈ v.queue ++ w.outbox.requests := by
    intro r
    rw [hrequests, ← hslow]
    cases via <;> simp [Visibility.requestFor, request, or_comm, or_assoc]
  have hdue : uncached → e.directory.dueTimestamp cell.writer entry.view = some c := by
    intro huncached
    obtain rfl := hslow.2 huncached
    exact Lineage.dueTimestamp_of_slow hfate hview hparent
  refine ⟨hanswer, ⟨_, resolver_examine hresolver w key cell, ?_⟩, fun hstore => ?_⟩
  · rw [hv.mem_queue_submitAll, hmade]
    simp [asked]
  · have hsettled := settled_examineAndSettle hresolver hv hstore w key cell
    have hdone := (hmade request).trans (by simp [asked] : _ ↔ uncached ∨ asked)
    generalize v.queue ++ (w.fate e.directory key cell).2.outbox.requests = done at hsettled hdone
    have hcached : (entry.settle e.directory done cell.writer).view.globalCommit =
        if request ∈ done then e.directory.dueTimestamp cell.writer entry.view else none := by
      simp [Entry.settle, request, hnone]
    refine ⟨_, hsettled.find? hentry, ?_, fun hneither => ?_⟩
    · rw [← directory, hcached]
      by_cases hrequest : request ∈ done
      · rw [if_pos hrequest]
        rcases hdone.1 hrequest with huncached | hbefore
        · exact iff_of_true (hdue huncached) (.inl huncached)
        · exact ⟨fun hts => .inr ⟨hbefore, hts⟩, Or.rec hdue And.right⟩
      · rw [if_neg hrequest]
        exact iff_of_false (by simp) fun h => hrequest (hdone.2 (h.imp_right And.left))
    · have hrequest : request ∉ done := fun h => hneither (hdone.1 h)
      have hphase := Lineage.phase_of_walk (Lineage.walk_of_resolveWriter hfate hview).2
      rw [Entry.settle_of_not_rolledBack (by simp [hphase]), if_neg hrequest]

end Engine

namespace Grandchild

/-- A transaction, its child and its grandchild commit from below, and a reader begins. -/
def store : TxnStore :=
  [Change.begin { id := ⟨1⟩, begin := ⟨1⟩ }, .begin { id := ⟨2⟩, begin := ⟨2⟩, parent := some ⟨1⟩ },
    .begin { id := ⟨3⟩, begin := ⟨3⟩, parent := some ⟨2⟩ }, .commit ⟨3⟩ ⟨4⟩, .commit ⟨2⟩ ⟨5⟩,
    .commit ⟨1⟩ ⟨6⟩, .begin { id := ⟨7⟩, begin := ⟨7⟩ }].foldl
    (fun t change => (t.submit 0 change).2) (.single (.empty {}))

theorem healthy : store.Healthy := by
  have hempty : (TxnStore.single (.empty {})).Healthy := fun _ => ⟨rfl, rfl⟩
  exact ((((((hempty.submit 0 _).submit 0 _).submit 0 _).submit 0 _).submit 0 _).submit 0 _).submit 0 _

/-- The store after the root's timestamp was cached on the child. -/
def childCached : TxnStore := (store.submit 0 (.globalCommit ⟨2⟩ ⟨6⟩)).2

/-- An engine on a store, with a resolver that has nothing to do. -/
def engine (t : TxnStore) : Engine := { store := t, resolver := some {} }

/-- The view of the reader. -/
def view : Visibility := { lineage := .ofRoot { id := ⟨7⟩, begin := ⟨7⟩ } }

/-- The cell that the grandchild wrote. -/
def cell : Cell := { timestamp := ⟨3⟩, writer := ⟨3⟩, value := some [1] }

/-- The record of the transaction. -/
def root : View := { id := ⟨1⟩, begin := ⟨1⟩, phase := .committed, commit := some ⟨6⟩ }

/-- The record of the child. -/
def child : View :=
  { id := ⟨2⟩, begin := ⟨2⟩, parent := some ⟨1⟩, phase := .committed, commit := some ⟨5⟩ }

/-- The record of the grandchild. -/
def entry : Entry :=
  { view := { id := ⟨3⟩, begin := ⟨3⟩, parent := some ⟨2⟩, phase := .committed, commit := some ⟨4⟩ }
    lastAlive := 0 }

theorem ready : Resolver.Ready {} := ⟨rfl, rfl, .refl _, .nil⟩

theorem resolver_engine (t : TxnStore) : (engine t).resolver = some {} := rfl

theorem healthy_engine {t : TxnStore} (h : t.Healthy) : (engine t).store.Healthy := h

theorem unseen : view.memory[cell.writer]? = none := by
  simp [view]

theorem commit_cell : cell.commit = none := rfl

theorem isSome_parent : entry.view.parent.isSome := rfl

theorem globalCommit_entry : entry.view.globalCommit = none := rfl

end Grandchild

/-- Nothing is cached on the child, so the first look at a cell of the grandchild has the root's timestamp
cached on the grandchild. -/
theorem cached_after_examine_grandchild :
    Resolver.Ready {} ∧ Grandchild.store.Healthy ∧
      ∃ entry', ((Grandchild.engine Grandchild.store).examineAndSettle Grandchild.view []
          Grandchild.cell).store.find? ⟨3⟩ = some entry' ∧
        entry'.view.globalCommit = some ⟨6⟩ := by
  obtain ⟨hentry, hchild, hroot, hfate⟩ :
      (Grandchild.engine Grandchild.store).store.find? Grandchild.cell.writer = some Grandchild.entry ∧
        (Grandchild.engine Grandchild.store).directory.find? ⟨2⟩ = some Grandchild.child ∧
        (Grandchild.engine Grandchild.store).directory.find? ⟨1⟩ = some Grandchild.root ∧
        Grandchild.view.lineage.resolveWriter (Grandchild.engine Grandchild.store).directory
          Grandchild.cell.writer = .ok (.committed ⟨6⟩ true) := by
    decide +kernel
  obtain ⟨-, -, hsettled⟩ := Engine.cached_after_examine_iff
    (Grandchild.resolver_engine Grandchild.store) Grandchild.ready Grandchild.unseen
    Grandchild.commit_cell hentry Grandchild.isSome_parent Grandchild.globalCommit_entry hfate []
  obtain ⟨entry', hfind, hcached, -⟩ := hsettled (Grandchild.healthy_engine Grandchild.healthy)
  refine ⟨Grandchild.ready, Grandchild.healthy, entry', hfind, hcached.2 (.inl ?_)⟩
  exact ⟨_, .child rfl hchild (.child rfl hroot (.root rfl)), by simp [Grandchild.child, Grandchild.root]⟩

/-- **Not every slow walk is cached**: a timestamp on the child ends the walk from the grandchild after one
parent, and nothing is asked of the resolver. -/
theorem not_cached_after_examine :
    ¬ ∀ (e : Engine) (v : Resolver) (reader : View) (w : Visibility) (cell : Cell) (entry : Entry)
        (c : Timestamp) (via : Bool) (key : Bytes), e.resolver = some v → v.Ready → e.store.Healthy →
      Visibility.load e.directory reader = .ok w → cell.commit = none →
      e.store.find? cell.writer = some entry → entry.view.parent.isSome → entry.view.globalCommit = none →
      w.lineage.resolveWriter e.directory cell.writer = .ok (.committed c via) →
      ∃ entry', (e.examineAndSettle w key cell).store.find? cell.writer = some entry' ∧
        entry'.view.globalCommit = some c := by
  intro h
  obtain ⟨hentry, hfate, hunchanged⟩ :
      (Grandchild.engine Grandchild.childCached).store.find? Grandchild.cell.writer = some Grandchild.entry ∧
        Grandchild.view.lineage.resolveWriter (Grandchild.engine Grandchild.childCached).directory
          Grandchild.cell.writer = .ok (.committed ⟨6⟩ false) ∧
        ((Grandchild.engine Grandchild.childCached).examineAndSettle Grandchild.view []
          Grandchild.cell).store.find? Grandchild.cell.writer = some Grandchild.entry := by
    decide +kernel
  have hload : Visibility.load (Grandchild.engine Grandchild.childCached).directory
      { id := ⟨7⟩, begin := ⟨7⟩ } = .ok Grandchild.view := by
    rw [Visibility.load, Lineage.load_root rfl]
    rfl
  obtain ⟨entry', hfind, hcached⟩ := h (Grandchild.engine Grandchild.childCached) {}
    { id := ⟨7⟩, begin := ⟨7⟩ } Grandchild.view Grandchild.cell Grandchild.entry ⟨6⟩ false []
    (Grandchild.resolver_engine Grandchild.childCached) Grandchild.ready
    (Grandchild.healthy_engine (Grandchild.healthy.submit 0 _)) hload Grandchild.commit_cell hentry
    Grandchild.isSome_parent Grandchild.globalCommit_entry hfate
  cases hunchanged.symm.trans hfind
  cases hcached

end Multiversion
