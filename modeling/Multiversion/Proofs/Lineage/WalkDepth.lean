import Multiversion.Proofs.Lineage.Loading
import Multiversion.Proofs.Store.Records
import Multiversion.Resolution.Request

/-!
# How far walks go

Three loops follow parent links: the one that collects a lineage, the one that decides the fate of a writer,
and the one that finds the root whose commit timestamp is to be cached.  Each of them counts in its own way
and gives up at the same depth, whatever the records look like.

* `Loop.run` — a loop, turn by turn, with `Lineage.collectTurn`, `Lineage.walkTurn` and `Request.rootTurn` for
  the three loops and their counters;
* `Endless` — parent links that run into a cycle;
* `Countdown` — walks that take one of their steps for each link, with `Lineage.countdown_walk` and
  `Request.countdown_rootOf` for the last two loops;
* `Lineage.Passes` — the records that a walk on behalf of a reader passes;
* `Directory.CarriesCommits` — committed records carry their timestamps, which every change keeps.

Main statement: `TxnStore.walks_agree`.
-/

namespace Multiversion

/-! ## The loops -/

/-- A loop that takes at most `turns` turns, each of which leads to another state or to the answer. -/
def Loop.run {σ α : Type} (turn : σ → σ ⊕ α) : (turns : Nat) → σ → Option α
  | 0, _ => none
  | turns + 1, state =>
      match turn state with
      | .inl next => run turn turns next
      | .inr answer => some answer

namespace Lineage

variable {d : Directory}

/-- A turn of the loop that collects ancestors: the ids found so far are what it counts. -/
def collectTurn (d : Directory) (subject : TxnId) (state : List TxnId × Option TxnId) :
    (List TxnId × Option TxnId) ⊕ Except TxnError (List TxnId) :=
  match state with
  | (ids, none) => .inr (.ok ids)
  | (ids, some parent) =>
      if ids.contains parent || ids.length > maxAncestors then
        .inr (.error (.invalidOperation (.endlessLineage subject)))
      else
        match d.get parent with
        | .error e => .inr (.error e)
        | .ok view => .inl (ids ++ [parent], view.parent)

/-- A turn of the loop that decides a fate: it counts parents before it looks for them, from zero on. -/
def walkTurn (l : Lineage) (d : Directory) (writer : TxnId) (state : Nat × Option Timestamp × View) :
    (Nat × Option Timestamp × View) ⊕ Except TxnError Fate :=
  let (depth, below, current) := state
  match below.filter fun _ => l.contains current.id with
  | some commit => .inr (.ok (.committedInto current.id commit))
  | none =>
      match current.phase with
      | .rolledBack => .inr (.ok .rolledBack)
      | .active => .inr (.ok (.active current.id (d.isExpired current.id)))
      | .committed =>
          match current.globalCommit, current.commit, current.parent with
          | some root, _, _ => .inr (.ok (.committed root false))
          | none, none, _ => .inr (.error (.invalidOperation (.missingCommit current.id)))
          | none, some commit, none => .inr (.ok (.committed commit (depth > 0)))
          | none, some commit, some parent =>
              if depth + 1 > maxAncestors then
                .inr (.error (.invalidOperation (.endlessLineage writer)))
              else
                match d.get parent with
                | .error e => .inr (.error e)
                | .ok view => .inl (depth + 1, some commit, view)

theorem run_collectTurn {subject : TxnId} {ids : List TxnId} {room : Nat}
    (hroom : ids.length + room = maxAncestors + 1) (parent : Option TxnId) :
    Loop.run (collectTurn d subject) (room + 1) (ids, parent) =
      some (collect d subject room ids parent) := by
  induction room generalizing ids parent with
  | zero =>
      cases parent with
      | none => rfl
      | some parent =>
          have hfull : ids.length > maxAncestors := by omega
          simp [Loop.run, collectTurn, collect, hfull]
  | succ room ih =>
      cases parent with
      | none => rfl
      | some parent =>
          have hfree : ¬ ids.length > maxAncestors := by omega
          rw [Loop.run, collectTurn, collect]
          cases hseen : ids.contains parent with
          | true => simp
          | false =>
              cases hget : d.get parent with
              | error e => simp [hfree]
              | ok view =>
                  have hnext : (ids ++ [parent]).length + room = maxAncestors + 1 := by
                    simp
                    omega
                  simpa [hfree] using ih hnext view.parent

theorem run_walkTurn {l : Lineage} {writer : TxnId} {depth room : Nat} {below : Option Timestamp}
    (hroom : depth + room = maxAncestors) (hbelow : below.isSome = decide (depth > 0)) (v : View) :
    Loop.run (l.walkTurn d writer) (room + 1) (depth, below, v) = some (l.walk d writer room below v) := by
  -- One case for each way in which the loop ends, and the last one where it goes on.
  fun_induction walk l d writer room below v generalizing depth with
  | case1 room below v commit hstop => simp [Loop.run, walkTurn, hstop]
  | case2 room below v hgo hphase => simp [Loop.run, walkTurn, hgo, hphase]
  | case3 room below v hgo hphase => simp [Loop.run, walkTurn, hgo, hphase]
  | case4 room below v hgo hphase root hcached => simp [Loop.run, walkTurn, hgo, hphase, hcached]
  | case5 room below v hgo hphase hcommit hcached =>
      simp [Loop.run, walkTurn, hgo, hphase, hcached, hcommit]
  | case6 room below v hgo hphase commit hparent hcommit hcached =>
      simp [Loop.run, walkTurn, hgo, hphase, hcached, hcommit, hparent, hbelow]
  | case7 below v hgo hphase commit parent hparent hcommit hcached =>
      have hfull : maxAncestors < depth + 1 := by omega
      simp [Loop.run, walkTurn, hgo, hphase, hcached, hcommit, hparent, hfull]
  | case8 below v hgo hphase commit parent hparent hcommit hcached room e hget =>
      have hfree : ¬ maxAncestors < depth + 1 := by omega
      simp [Loop.run, walkTurn, hgo, hphase, hcached, hcommit, hparent, hfree, hget]
  | case9 below v hgo hphase commit parent hparent hcommit hcached room u hget ih =>
      have hfree : ¬ maxAncestors < depth + 1 := by omega
      have hnext : depth + 1 + room = maxAncestors := by omega
      rw [Loop.run, walkTurn]
      simpa [hgo, hphase, hcached, hcommit, hparent, hfree, hget] using ih hnext (by simp)

end Lineage

namespace Request

variable {d : Directory}

/-- A turn of the loop that finds the root: it counts parents before it looks for them, from zero on. -/
def rootTurn (d : Directory) (subject : TxnId) (state : Nat × View) :
    (Nat × View) ⊕ Except TxnError (Option View) :=
  let (depth, current) := state
  match current.parent with
  | none => .inr (.ok (some current))
  | some parent =>
      if depth + 1 > maxAncestors then .inr (.error (.invalidOperation (.endlessLineage subject)))
      else
        match d.get parent with
        | .error e => .inr (.error e)
        | .ok view => if view.phase = .committed then .inl (depth + 1, view) else .inr (.ok none)

theorem run_rootTurn {subject : TxnId} {depth room : Nat} (hroom : depth + room = maxAncestors) (v : View) :
    Loop.run (rootTurn d subject) (room + 1) (depth, v) = some (rootOf d subject room v) := by
  fun_induction rootOf d subject room v generalizing depth with
  | case1 room v hparent => simp [Loop.run, rootTurn, hparent]
  | case2 v parent hparent =>
      have hfull : maxAncestors < depth + 1 := by omega
      simp [Loop.run, rootTurn, hparent, hfull]
  | case3 v parent hparent room e hget =>
      have hfree : ¬ maxAncestors < depth + 1 := by omega
      simp [Loop.run, rootTurn, hparent, hfree, hget]
  | case4 v parent hparent room u hget hphase ih =>
      have hfree : ¬ maxAncestors < depth + 1 := by omega
      have hnext : depth + 1 + room = maxAncestors := by omega
      rw [Loop.run, rootTurn]
      simpa [hparent, hfree, hget, hphase] using ih hnext
  | case5 v parent hparent room u hget hphase =>
      have hfree : ¬ maxAncestors < depth + 1 := by omega
      simp [Loop.run, rootTurn, hparent, hfree, hget, hphase]

end Request

/-! ## Cycles, and walks with a budget -/

/-- Parent links lead from here into a cycle: to a transaction that they lead back to from its parent. -/
def Endless (d : Directory) (id : TxnId) : Prop :=
  ∃ a v parent, Ascends d id a ∧ d.find? a = some v ∧ v.parent = some parent ∧ Ascends d parent a

/-- Before a cycle, and in it, there is always a next record. -/
theorem Endless.next {d : Directory} {id : TxnId} (h : Endless d id) :
    ∃ v parent, d.find? id = some v ∧ v.parent = some parent ∧ Endless d parent := by
  obtain ⟨a, v, parent, hascends, hfind, hparent, hback⟩ := h
  cases hascends with
  | refl => exact ⟨v, parent, hfind, hparent, id, v, parent, hback, hfind, hparent, hback⟩
  | step hfirst hnext hrest => exact ⟨_, _, hfirst, hnext, a, v, parent, hrest, hfind, hparent, hback⟩

/-- A walk that takes one of the steps that it has left for each parent link of a record with `P`: it
succeeds at a root, and gives up at a link when no step is left.  From step to step it may keep a note. -/
structure Countdown {σ α : Type} (d : Directory) (P : View → Prop)
    (walk : Nat → σ → View → Except TxnError α) (giveUp : TxnError) : Prop where
  root : ∀ {v : View}, P v → v.parent = none → ∀ room note, ∃ a, walk room note v = .ok a
  stop : ∀ {v : View} {parent : TxnId}, P v → v.parent = some parent → ∀ note, walk 0 note v = .error giveUp
  step : ∀ {v u : View} {parent : TxnId}, P v → v.parent = some parent → d.find? parent = some u → P u →
    ∀ room note, ∃ next, walk (room + 1) note v = walk room next u

namespace Countdown

variable {σ α : Type} {d : Directory} {P : View → Prop} {walk : Nat → σ → View → Except TxnError α}
  {giveUp : TxnError} {v : View}

/-- **A walk to a root** succeeds exactly if the root is not too far away. -/
theorem isOk_iff (h : Countdown d P walk giveUp) {us : List View} (hpath : Path d v us)
    (hall : ∀ u ∈ v :: us, P u) (room : Nat) (note : σ) :
    (∃ a, walk room note v = .ok a) ↔ us.length ≤ room := by
  induction hpath generalizing room note with
  | root hroot => exact iff_of_true (h.root (hall _ List.mem_cons_self) hroot room note) (Nat.zero_le _)
  | @child v u us parent hparent hfind hpath ih =>
      have hv := hall v List.mem_cons_self
      have hrest := fun w hw => hall w (List.mem_cons_of_mem v hw)
      cases room with
      | zero =>
          rw [h.stop hv hparent note]
          exact iff_of_false nofun nofun
      | succ room =>
          obtain ⟨next, hstep⟩ := h.step hv hparent hfind (hrest u List.mem_cons_self) room note
          rw [hstep, ih hrest room next]
          exact Nat.succ_le_succ_iff.symm

/-- **A walk into a cycle** gives up. -/
theorem of_endless (h : Countdown d P walk giveUp) {id : TxnId} (hv : d.find? id = some v)
    (hend : Endless d id) (hall : ∀ a u, Ascends d id a → d.find? a = some u → P u) (room : Nat) (note : σ) :
    walk room note v = .error giveUp := by
  induction room generalizing id v note with
  | zero =>
      obtain ⟨w, parent, hw, hparent, -⟩ := hend.next
      cases hv.symm.trans hw
      exact h.stop (hall id v (.refl id) hv) hparent note
  | succ room ih =>
      obtain ⟨w, parent, hw, hparent, hrest⟩ := hend.next
      cases hv.symm.trans hw
      obtain ⟨u, -, hu, -, -⟩ := hrest.next
      have habove : ∀ a x, Ascends d parent a → d.find? a = some x → P x :=
        fun a x ha hx => hall a x (.step hv hparent ha) hx
      obtain ⟨next, hstep⟩ := h.step (hall id v (.refl id) hv) hparent hu
        (habove parent u (.refl parent) hu) room note
      rw [hstep]
      exact ih hu hrest habove next

end Countdown

namespace Lineage

variable {d : Directory} {v : View}

theorem collect_of_endless {subject : TxnId} {room : Nat} {ids : List TxnId} {parent : TxnId}
    (h : Endless d parent) :
    collect d subject room ids (some parent) = .error (.invalidOperation (.endlessLineage subject)) := by
  induction room generalizing ids parent with
  | zero => rfl
  | succ room ih =>
      obtain ⟨u, next, hfind, hnext, hend⟩ := h.next
      rw [collect, Directory.get_eq_ok_iff.2 hfind]
      split
      · rfl
      · show collect d subject room (ids ++ [parent]) u.parent = _
        rw [hnext]
        exact ih hend

/-! ## Records that a walk passes -/

/-- A record at which a walk on behalf of a reader goes on: it has committed, nothing is cached on it, and
it has nothing to do with the reader. -/
structure Passes (l : Lineage) (v : View) : Prop where
  committed : v.phase = .committed
  stamped : ∃ c, v.commit = some c
  uncached : v.globalCommit = none
  foreign : l.contains v.id = false

/-- The walk that decides a fate notes the commit timestamp that it saw last. -/
theorem countdown_walk (l : Lineage) (d : Directory) (writer : TxnId) :
    Countdown d l.Passes (fun room below v => l.walk d writer room below v)
      (.invalidOperation (.endlessLineage writer)) where
  root {v} h hroot room below := by
    obtain ⟨c, hc⟩ := h.stamped
    unfold walk
    exact ⟨.committed c below.isSome, by simp [h.foreign, h.committed, h.uncached, hc, hroot]⟩
  stop {v parent} h hparent below := by
    obtain ⟨c, hc⟩ := h.stamped
    unfold walk
    simp [h.foreign, h.committed, h.uncached, hc, hparent]
  step {v u parent} h hparent hfind _ room below := by
    obtain ⟨c, hc⟩ := h.stamped
    refine ⟨some c, ?_⟩
    conv => lhs; unfold walk
    simp [h.foreign, h.committed, h.uncached, hc, hparent, Directory.get_eq_ok_iff.2 hfind]

end Lineage

namespace Request

variable {d : Directory} {v : View}

theorem rootOf_root (hroot : v.parent = none) (d : Directory) (subject : TxnId) (room : Nat) :
    rootOf d subject room v = .ok (some v) := by
  unfold rootOf
  rw [hroot]

/-- The walk of the resolver goes as far as that of a reader. -/
theorem countdown_rootOf (d : Directory) (subject : TxnId) :
    Countdown d (fun v => v.phase = .committed) (fun room (_ : Unit) v => rootOf d subject room v)
      (.invalidOperation (.endlessLineage subject)) where
  root _ hroot room _ := ⟨_, rootOf_root hroot d subject room⟩
  stop {v parent} _ hparent _ := by
    unfold rootOf
    simp [hparent]
  step {v u parent} _ hparent hfind hu room _ := by
    refine ⟨(), ?_⟩
    conv => lhs; unfold rootOf
    simp [hparent, Directory.get_eq_ok_iff.2 hfind, hu]

/-- What the resolver decides about a committed transaction rests on its walk, if there is one. -/
theorem decideGlobalCommit_isOk_iff (hv : d.find? v.id = some v) (hphase : v.phase = .committed)
    (hnone : v.globalCommit = none) :
    (∃ change, decideGlobalCommit d v.id = .ok change) ↔
      ∃ root, rootOf d v.id maxAncestors v = .ok root := by
  unfold decideGlobalCommit
  rw [Directory.get_eq_ok_iff.2 hv]
  cases hparent : v.parent with
  | none =>
      refine iff_of_true ⟨none, ?_⟩ ⟨some v, rootOf_root hparent d v.id maxAncestors⟩
      simp [bind, Except.bind, pure, Except.pure, hparent]
  | some parent =>
      cases hwalk : rootOf d v.id maxAncestors v with
      | error e => simp [bind, Except.bind, hphase, hnone, hparent, hwalk]
      | ok root => simp [bind, Except.bind, pure, Except.pure, hphase, hnone, hparent, hwalk]

end Request

/-- Whether every committed record carries its commit timestamp. -/
def Directory.CarriesCommits (d : Directory) : Prop :=
  ∀ {id : TxnId} {v : View}, d.find? id = some v → v.phase = .committed → ∃ c, v.commit = some c

/-- No change leaves a committed record without its timestamp. -/
theorem TxnStore.carriesCommits_submit {t : TxnStore} {now : Millis}
    (h : (t.directory now).CarriesCommits) (now' : Millis) (change : Change) :
    ((t.submit now change).2.directory now').CarriesCommits := by
  intro id v hfind hphase
  rcases t.directory_submit now now' change with hsame | ⟨old, e, haccepted, hold, hnew, hothers⟩
  · exact h ((hsame id).symm.trans hfind) hphase
  · rcases Directory.find?_cases hnew hothers hfind with ⟨rfl, rfl⟩ | ⟨-, hfind⟩
    · cases haccepted with
      | begin hactive => simp [hactive] at hphase
      | commit => exact ⟨_, rfl⟩
      | rollback => cases hphase
      | globalCommit hcommitted =>
          obtain ⟨c, hc⟩ := h hold hcommitted
          exact ⟨c, hc⟩
      | keepAlive hactive => simp [hactive] at hphase
    · exact h hfind hphase

/-- What the three walks do over the records of a store. -/
structure WalksAgree (d : Directory) (t : TxnStore) (now : Millis) : Prop where
  -- Each loop comes to its answer, and soon.
  loadEnds : ∀ v : View,
    Loop.run (Lineage.collectTurn d v.id) (maxAncestors + 1) ([v.id], v.parent) =
      some ((Lineage.load d v).map Lineage.ids)
  resolveEnds : ∀ (l : Lineage) (writer : TxnId) (v : View), l.contains writer = false →
    d.find? writer = some v →
    Loop.run (l.walkTurn d writer) (maxAncestors + 1) (0, none, v) = some (l.resolveWriter d writer)
  rootEnds : ∀ (subject : TxnId) (v : View),
    Loop.run (Request.rootTurn d subject) (maxAncestors + 1) (0, v) =
      some (Request.rootOf d subject maxAncestors v)
  -- A lineage is the transaction and its ancestors, nearest first and none of them twice.
  loaded : ∀ (v : View) (l : Lineage), Lineage.load d v = .ok l ↔
    l.view = v ∧ l.ids.Nodup ∧
      ∃ above, Line d v.parent above ∧ above.length ≤ maxAncestors ∧ l.ids = v.id :: above
  -- Along committed records to a root all three succeed up to the same depth.
  depth : ∀ (l : Lineage) (v : View) (us : List View), d.find? v.id = some v → Path d v us →
    (∀ u ∈ v :: us, l.Passes u) →
    ((∃ own, Lineage.load d v = .ok own) ↔ us.length ≤ maxAncestors) ∧
    ((∃ fate, l.resolveWriter d v.id = .ok fate) ↔ us.length ≤ maxAncestors) ∧
    ((∃ change, Request.decideGlobalCommit d v.id = .ok change) ↔ us.length ≤ maxAncestors)
  -- Along committed records into a cycle all three fail, and the store stays as it is.
  cycle : ∀ (l : Lineage) (v : View), d.find? v.id = some v → Endless d v.id →
    (∀ a u, Ascends d v.id a → d.find? a = some u → l.Passes u) →
    Lineage.load d v = .error (.invalidOperation (.endlessLineage v.id)) ∧
    l.resolveWriter d v.id = .error (.invalidOperation (.endlessLineage v.id)) ∧
    Request.decideGlobalCommit d v.id = .error (.invalidOperation (.endlessLineage v.id)) ∧
    Request.execute ⟨.globalCommit, v.id⟩ t now = (.failed, t)
  -- A committed record lacks its timestamp only where one did before.
  stamped : d.CarriesCommits →
    ∀ (change : Change) (now' : Millis), ((t.submit now change).2.directory now').CarriesCommits

namespace Lineage

variable {d : Directory} {l : Lineage} {v : View}

theorem resolveWriter_of_foreign {writer : TxnId} (hforeign : l.contains writer = false)
    (hv : d.find? writer = some v) : l.resolveWriter d writer = l.walk d writer maxAncestors none v := by
  simp [resolveWriter, hforeign, Directory.get_eq_ok_iff.2 hv]

end Lineage

/-- **Walks along parent links end, and agree on how far they go.**  Whatever the records of a store look
like, each of the three loops comes to its answer within one turn more than there may be ancestors. -/
theorem TxnStore.walks_agree (t : TxnStore) (now : Millis) : WalksAgree (t.directory now) t now where
  loadEnds v := by
    rw [Lineage.run_collectTurn (by simp; omega), Lineage.load]
    cases Lineage.collect (t.directory now) v.id maxAncestors [v.id] v.parent <;> rfl
  resolveEnds l writer v hforeign hv := by
    rw [Lineage.resolveWriter_of_foreign hforeign hv]
    exact Lineage.run_walkTurn (Nat.zero_add _) rfl v
  rootEnds subject v := Request.run_rootTurn (Nat.zero_add _) v
  loaded v l := Lineage.load_eq_ok_iff
  depth l v us hv hpath hpasses := by
    have hfirst := hpasses v List.mem_cons_self
    refine ⟨Lineage.load_isOk_iff hv hpath, ?_, ?_⟩
    · rw [Lineage.resolveWriter_of_foreign hfirst.foreign hv]
      exact (l.countdown_walk (t.directory now) v.id).isOk_iff hpath hpasses maxAncestors none
    · rw [Request.decideGlobalCommit_isOk_iff hv hfirst.committed hfirst.uncached]
      exact (Request.countdown_rootOf (t.directory now) v.id).isOk_iff hpath
        (fun u hu => (hpasses u hu).committed) maxAncestors ()
  cycle l v hv hend hpasses := by
    have hfirst := hpasses v.id v (.refl v.id) hv
    obtain ⟨w, parent, hw, hparent, hrest⟩ := hend.next
    cases hv.symm.trans hw
    have hroot : Request.rootOf (t.directory now) v.id maxAncestors v =
        .error (.invalidOperation (.endlessLineage v.id)) :=
      (Request.countdown_rootOf (t.directory now) v.id).of_endless hv hend
        (fun a u ha hu => (hpasses a u ha hu).committed) maxAncestors ()
    have hdecide : Request.decideGlobalCommit (t.directory now) v.id =
        .error (.invalidOperation (.endlessLineage v.id)) := by
      simp [Request.decideGlobalCommit, bind, Except.bind, Directory.get_eq_ok_iff.2 hv,
        hfirst.committed, hfirst.uncached, hparent, hroot]
    refine ⟨?_, ?_, hdecide, ?_⟩
    · rw [Lineage.load, hparent, Lineage.collect_of_endless hrest]
    · rw [Lineage.resolveWriter_of_foreign hfirst.foreign hv]
      exact (l.countdown_walk (t.directory now) v.id).of_endless hv hend hpasses maxAncestors none
    · simp [Request.execute, Request.decide, hdecide]
  stamped h change now' := TxnStore.carriesCommits_submit h now' change

namespace LineAndLoop

/-- A transaction two levels below its root. -/
def nested : View := { id := ⟨3⟩, begin := ⟨3⟩, parent := some ⟨2⟩, phase := .committed, commit := some ⟨6⟩ }

def middle : View := { id := ⟨2⟩, begin := ⟨2⟩, parent := some ⟨1⟩, phase := .committed, commit := some ⟨7⟩ }

def root : View := { id := ⟨1⟩, begin := ⟨1⟩, phase := .committed, commit := some ⟨8⟩ }

/-- Two transactions that are each other's parent. -/
def first : View := { id := ⟨4⟩, begin := ⟨4⟩, parent := some ⟨5⟩, phase := .committed, commit := some ⟨9⟩ }

def second : View := { id := ⟨5⟩, begin := ⟨5⟩, parent := some ⟨4⟩, phase := .committed, commit := some ⟨9⟩ }

def reader : View := { id := ⟨9⟩, begin := ⟨9⟩ }

def store : TxnStore :=
  ([root, middle, nested, first, second].flatMap fun v =>
    [Change.begin { v with phase := .active, commit := none }] ++
      (v.commit.map (Change.commit v.id)).toList).foldl
    (fun t change => (t.submit 0 change).2) (.single (.empty {}))

theorem found : ∀ v ∈ [nested, middle, root, first, second], (store.directory 0).find? v.id = some v := by
  decide +kernel

theorem passes : ∀ v ∈ [nested, middle, root, first, second], (Lineage.ofRoot reader).Passes v := by
  simp only [List.forall_mem_cons]
  exact ⟨⟨rfl, ⟨_, rfl⟩, rfl, rfl⟩, ⟨rfl, ⟨_, rfl⟩, rfl, rfl⟩, ⟨rfl, ⟨_, rfl⟩, rfl, rfl⟩,
    ⟨rfl, ⟨_, rfl⟩, rfl, rfl⟩, ⟨rfl, ⟨_, rfl⟩, rfl, rfl⟩, nofun⟩

variable {d : Directory}

theorem path (hmiddle : d.find? middle.id = some middle) (hroot : d.find? root.id = some root) :
    Path d nested [middle, root] :=
  .child rfl hmiddle (.child rfl hroot (.root rfl))

theorem endless (hfirst : d.find? first.id = some first) (hsecond : d.find? second.id = some second) :
    Endless d first.id :=
  ⟨first.id, first, second.id, .refl _, hfirst, rfl, .step hsecond rfl (.refl _)⟩

/-- Parent links do not lead out of the loop. -/
theorem loop_passes (hfirst : d.find? first.id = some first) (hsecond : d.find? second.id = some second)
    {id a : TxnId} {u : View} (h : Ascends d id a) (hid : id = first.id ∨ id = second.id)
    (hu : d.find? a = some u) : (Lineage.ofRoot reader).Passes u := by
  induction h with
  | refl =>
      rcases hid with rfl | rfl
      · cases hfirst.symm.trans hu
        exact passes first (by simp)
      · cases hsecond.symm.trans hu
        exact passes second (by simp)
  | step hfind hparent _ ih =>
      rcases hid with rfl | rfl
      · cases hfirst.symm.trans hfind
        cases hparent
        exact ih (.inr rfl) hu
      · cases hsecond.symm.trans hfind
        cases hparent
        exact ih (.inl rfl) hu

end LineAndLoop

/-- Two levels down all three walks succeed, and in the loop all three fail. -/
theorem walks_agree_lineAndLoop :
    ((∃ own, Lineage.load (LineAndLoop.store.directory 0) LineAndLoop.nested = .ok own) ∧
      (∃ fate, (Lineage.ofRoot LineAndLoop.reader).resolveWriter (LineAndLoop.store.directory 0) ⟨3⟩ =
        .ok fate) ∧
      ∃ change, Request.decideGlobalCommit (LineAndLoop.store.directory 0) ⟨3⟩ = .ok change) ∧
    Lineage.load (LineAndLoop.store.directory 0) LineAndLoop.first =
        .error (.invalidOperation (.endlessLineage ⟨4⟩)) ∧
      (Lineage.ofRoot LineAndLoop.reader).resolveWriter (LineAndLoop.store.directory 0) ⟨4⟩ =
        .error (.invalidOperation (.endlessLineage ⟨4⟩)) ∧
      Request.execute ⟨.globalCommit, ⟨4⟩⟩ LineAndLoop.store 0 = (.failed, LineAndLoop.store) := by
  have hagree := LineAndLoop.store.walks_agree 0
  have hfirst := LineAndLoop.found LineAndLoop.first (by simp)
  have hsecond := LineAndLoop.found LineAndLoop.second (by simp)
  have hpath := LineAndLoop.path (LineAndLoop.found LineAndLoop.middle (by simp))
    (LineAndLoop.found LineAndLoop.root (by simp))
  obtain ⟨hload, hresolve, hdecide⟩ := hagree.depth (.ofRoot LineAndLoop.reader) LineAndLoop.nested
    [LineAndLoop.middle, LineAndLoop.root] (LineAndLoop.found LineAndLoop.nested (by simp)) hpath
    fun u hu => LineAndLoop.passes u (List.mem_append_left [LineAndLoop.first, LineAndLoop.second] hu)
  obtain ⟨hload', hresolve', -, hexecute⟩ := hagree.cycle (.ofRoot LineAndLoop.reader) LineAndLoop.first
    hfirst (LineAndLoop.endless hfirst hsecond)
    fun a u ha hu => LineAndLoop.loop_passes hfirst hsecond ha (.inl rfl) hu
  have hshort : [LineAndLoop.middle, LineAndLoop.root].length ≤ maxAncestors := by decide
  exact ⟨⟨hload.2 hshort, hresolve.2 hshort, hdecide.2 hshort⟩, hload', hresolve', hexecute⟩

end Multiversion
