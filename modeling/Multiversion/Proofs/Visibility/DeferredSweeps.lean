import Mathlib.Data.List.Dedup
import Multiversion.Proofs.Isolation.Sessions
import Multiversion.Proofs.Storage.RowChanges

/-!
# Clean-up that waits

Hand-offs can be applied at once or much later, by a worker that lags behind while transactions go on
writing.  As long as the writing transactions are not among those whose versions are cleaned up, the cells
end up the same: the very same versions in the same order, row by row.

* `CellEvent` — a write, or a hand-off that is applied, and `CellEvent.run` for a sequence of them;
* `Deferrable` — hand-offs that do not care when they are applied;
* `CellEvent.run_eq` — every sequence ends where its writes lead, with its hand-offs applied after them;
* `Sweeper.Turn`, `Sweeper.run` — a sweeper that receives hand-offs between writes, and works off its queue
  whenever it finds the time.

Main statement: `CellStore.sweeps_deferrable`.
-/

namespace Multiversion

/-- What happens to cells: a version is written, or a hand-off is applied. -/
inductive CellEvent where
  | write (key : Bytes) (cell : Cell)
  | tidy (h : HandOff)
  deriving DecidableEq, Repr

namespace CellEvent

/-- What an event does to the cells. -/
def applyTo : CellEvent → CellStore → CellStore
  | write key cell, s => s.put key cell
  | tidy h, s => (h.applyTo s).2

/-- The cells after some events. -/
def run (events : List CellEvent) (s : CellStore) : CellStore := events.foldl (fun s e => e.applyTo s) s

def write? : CellEvent → Option (Bytes × Cell)
  | write key cell => some (key, cell)
  | tidy _ => none

def handOff? : CellEvent → Option HandOff
  | write _ _ => none
  | tidy h => some h

/-- The writes among some events, in order. -/
def writes (events : List CellEvent) : List (Bytes × Cell) := events.filterMap write?

/-- The hand-offs among some events, in order. -/
def handOffs (events : List CellEvent) : List HandOff := events.filterMap handOff?

/-- Versions written one after the other. -/
def writeAll (writes : List (Bytes × Cell)) (s : CellStore) : CellStore :=
  writes.foldl (fun s w => s.put w.1 w.2) s

end CellEvent

/-- Hand-offs that may wait for writes: they are about versions of transactions that do not write any more,
and do not say two things about one version. -/
structure Deferrable (writes : List (Bytes × Cell)) (handOffs : List HandOff) : Prop where
  finished : ∀ w ∈ writes, ∀ h ∈ handOffs, h.writer ≠ w.2.writer
  agree : ∀ h ∈ handOffs, ∀ h' ∈ handOffs, h.key = h'.key → h.writer = h'.writer → h = h'

namespace Sweeper

variable {s : CellStore}

theorem applyAll_eq_foldl (s : CellStore) (queue : List HandOff) :
    (applyAll s queue).2 = queue.foldl (fun s h => (h.applyTo s).2) s := by
  induction queue generalizing s with
  | nil => rfl
  | cons h rest ih => exact ih (h.applyTo s).2

/-- A hand-off that is to be applied anyway need not be applied before. -/
theorem applyAll_of_mem {queue : List HandOff} {h : HandOff} (hmem : h ∈ queue)
    (hagree : ∀ h' ∈ queue, h.key = h'.key → h.writer = h'.writer → h = h') (s : CellStore) :
    (applyAll (h.applyTo s).2 queue).2 = (applyAll s queue).2 := by
  induction queue generalizing s with
  | nil => cases hmem
  | cons first rest ih =>
      show (applyAll (first.applyTo (h.applyTo s).2).2 rest).2 = (applyAll (first.applyTo s).2 rest).2
      rcases List.mem_cons.1 hmem with rfl | hrest
      · rw [HandOff.applyTo_idem]
      · rw [HandOff.applyTo_comm (hagree first List.mem_cons_self)]
        exact ih hrest (fun h' hh' => hagree h' (List.mem_cons_of_mem _ hh')) _

/-- Repetitions do not matter. -/
theorem applyAll_dedup {queue : List HandOff}
    (hagree : ∀ h ∈ queue, ∀ h' ∈ queue, h.key = h'.key → h.writer = h'.writer → h = h')
    (s : CellStore) : (applyAll s queue.dedup).2 = (applyAll s queue).2 := by
  induction queue generalizing s with
  | nil => rfl
  | cons h rest ih =>
      have hrest := ih fun g hg g' hg' =>
        hagree g (List.mem_cons_of_mem _ hg) g' (List.mem_cons_of_mem _ hg')
      by_cases hmem : h ∈ rest
      · rw [List.dedup_cons_of_mem hmem, hrest]
        exact (applyAll_of_mem hmem
          (fun h' hh' => hagree h List.mem_cons_self h' (List.mem_cons_of_mem _ hh')) s).symm
      · rw [List.dedup_cons_of_notMem hmem]
        exact hrest (h.applyTo s).2

/-- **Which hand-offs** are applied decides, not their order and not how often each of them is. -/
theorem applyAll_congr {queue queue' : List HandOff}
    (hagree : ∀ h ∈ queue, ∀ h' ∈ queue, h.key = h'.key → h.writer = h'.writer → h = h')
    (hsame : ∀ h, h ∈ queue' ↔ h ∈ queue) (s : CellStore) :
    (applyAll s queue').2 = (applyAll s queue).2 := by
  have hagree' : ∀ h ∈ queue', ∀ h' ∈ queue', h.key = h'.key → h.writer = h'.writer → h = h' :=
    fun h hh h' hh' => hagree h ((hsame h).1 hh) h' ((hsame h').1 hh')
  have hperm : queue'.dedup.Perm queue.dedup :=
    (List.perm_ext_iff_of_nodup (List.nodup_dedup _) (List.nodup_dedup _)).2 fun h => by
      rw [List.mem_dedup, List.mem_dedup, hsame]
  rw [← applyAll_dedup hagree' s, ← applyAll_dedup hagree s, applyAll_eq_foldl, applyAll_eq_foldl]
  refine hperm.foldl_eq' (fun h hh h' hh' s => ?_) s
  exact HandOff.applyTo_comm (hagree' h (List.mem_dedup.1 hh) h' (List.mem_dedup.1 hh')) s

end Sweeper

namespace CellEvent

variable {s : CellStore} {events events' : List CellEvent}

theorem applyTo_writeAll (hs : s.Reachable) {writes : List (Bytes × Cell)} {h : HandOff}
    (hne : ∀ w ∈ writes, h.writer ≠ w.2.writer) :
    (h.applyTo (writeAll writes s)).2 = writeAll writes (h.applyTo s).2 := by
  induction writes generalizing s with
  | nil => rfl
  | cons w rest ih =>
      show (h.applyTo (writeAll rest (s.put w.1 w.2))).2 = writeAll rest ((h.applyTo s).2.put w.1 w.2)
      rw [ih (hs.put w.1 w.2) fun w' hw' => hne w' (List.mem_cons_of_mem _ hw'),
        HandOff.applyTo_put (hne w List.mem_cons_self) hs]

/-- **Clean-up can wait to the end.**  Events lead where their writes lead, with the hand-offs applied
after them. -/
theorem run_eq (hs : s.Reachable)
    (hfinished : ∀ w ∈ writes events, ∀ h ∈ handOffs events, h.writer ≠ w.2.writer) :
    run events s = (Sweeper.applyAll (writeAll (writes events) s) (handOffs events)).2 := by
  induction events generalizing s with
  | nil => rfl
  | cons event rest ih =>
      cases event with
      | write key cell =>
          exact ih (hs.put key cell) fun w hw => hfinished w (List.mem_cons_of_mem _ hw)
      | tidy h =>
          have hrest := ih (HandOff.reachable_applyTo hs h) fun w hw g hg =>
            hfinished w hw g (List.mem_cons_of_mem _ hg)
          have hmove : (h.applyTo (writeAll (writes rest) s)).2 = writeAll (writes rest) (h.applyTo s).2 :=
            applyTo_writeAll hs fun w hw => hfinished w hw h List.mem_cons_self
          show run rest (h.applyTo s).2 =
            (Sweeper.applyAll (h.applyTo (writeAll (writes rest) s)).2 (handOffs rest)).2
          rw [hrest, ← hmove]

/-- Events with the same writes and the same hand-offs end in the same cells. -/
theorem run_congr (hs : s.Reachable) (hdefer : Deferrable (writes events) (handOffs events))
    (hwrites : writes events' = writes events) (hsame : ∀ h, h ∈ handOffs events' ↔ h ∈ handOffs events) :
    run events' s = run events s := by
  rw [run_eq hs hdefer.finished, run_eq hs fun w hw h hh =>
    hdefer.finished w (hwrites ▸ hw) h ((hsame h).1 hh), hwrites]
  exact Sweeper.applyAll_congr hdefer.agree hsame _

end CellEvent

namespace Sweeper

/-- What happens to cells that have a sweeper. -/
inductive Turn where
  | write (key : Bytes) (cell : Cell)
  -- A reader leaves a hand-off.
  | receive (h : HandOff)
  -- The worker in the background applies the oldest hand-off that it has not applied yet.
  | work
  deriving DecidableEq, Repr

/-- What a turn does to the sweeper and to the cells. -/
def turn (state : Sweeper × CellStore) : Turn → Sweeper × CellStore
  | .write key cell => (state.1, state.2.put key cell)
  | .receive h => state.1.receive state.2 h
  | .work => state.1.applyNext state.2

/-- The sweeper and the cells after some turns. -/
def run (s : Sweeper) (cells : CellStore) (turns : List Turn) : Sweeper × CellStore :=
  turns.foldl turn (s, cells)

/-- What a turn asks for, whenever it may be carried out. -/
def Turn.event? : Turn → Option CellEvent
  | .write key cell => some (.write key cell)
  | .receive h => some (.tidy h)
  | .work => none

/-- What some turns ask for, in order. -/
def events (turns : List Turn) : List CellEvent := turns.filterMap Turn.event?

/-- A prompt sweeper does everything at once. -/
theorem run_prompt (cells : CellStore) (turns : List Turn) :
    run .prompt cells turns = (.prompt, CellEvent.run (events turns) cells) := by
  induction turns generalizing cells with
  | nil => rfl
  | cons t rest ih => cases t <;> exact ih _

theorem run_tidies (cells : CellStore) (queue : List HandOff) :
    CellEvent.run (queue.map .tidy) cells = (applyAll cells queue).2 := by
  rw [applyAll_eq_foldl, CellEvent.run, List.foldl_map]
  rfl

/-- A worker in the background does everything at some time, and hand-offs in their order. -/
theorem exists_events (queue : List HandOff) (applied : Nat) (cells : CellStore) (turns : List Turn) :
    ∃ events', CellEvent.writes events' = CellEvent.writes (events turns) ∧
      CellEvent.handOffs events' = queue ++ CellEvent.handOffs (events turns) ∧
      ((run (.queued queue true applied) cells turns).1.shutdown
        (run (.queued queue true applied) cells turns).2).2 = CellEvent.run events' cells := by
  induction turns generalizing queue applied cells with
  | nil =>
      refine ⟨queue.map .tidy, ?_, ?_, (run_tidies cells queue).symm⟩
      · simp [CellEvent.writes, CellEvent.write?, events, Function.comp_def]
      · simp [CellEvent.handOffs, CellEvent.handOff?, events, Function.comp_def]
  | cons t rest ih =>
      cases t with
      | write key cell =>
          obtain ⟨events', hwrites, hhandOffs, hcells⟩ := ih queue applied (cells.put key cell)
          exact ⟨.write key cell :: events', congrArg (List.cons (key, cell)) hwrites, hhandOffs, hcells⟩
      | receive h =>
          obtain ⟨events', hwrites, hhandOffs, hcells⟩ := ih (queue ++ [h]) applied cells
          refine ⟨events', hwrites, hhandOffs.trans ?_, hcells⟩
          rw [List.append_assoc]
          rfl
      | work =>
          cases queue with
          | nil => exact ih [] applied cells
          | cons h queue =>
              obtain ⟨events', hwrites, hhandOffs, hcells⟩ :=
                ih queue (applied + if (h.applyTo cells).1 then 1 else 0) (h.applyTo cells).2
              exact ⟨.tidy h :: events', hwrites, congrArg (List.cons h) hhandOffs, hcells⟩

end Sweeper

/-- **Clean-up can be deferred.**  Writes and hand-offs lead to the same cells wherever the hand-offs stand
between the writes, in whatever order and however often each of them is applied, if they are about versions
of transactions that do not write any more and do not say two things about one version.  So a sweeper in the
background, once it has been shut down, leaves the cells that a prompt one leaves. -/
theorem CellStore.sweeps_deferrable {s : CellStore} (hs : s.Reachable) :
    (∀ events events' : List CellEvent,
      Deferrable (CellEvent.writes events) (CellEvent.handOffs events) →
      CellEvent.writes events' = CellEvent.writes events →
      (∀ h, h ∈ CellEvent.handOffs events' ↔ h ∈ CellEvent.handOffs events) →
      CellEvent.run events' s = CellEvent.run events s) ∧
    ∀ turns turns' : List Sweeper.Turn,
      Deferrable (CellEvent.writes (Sweeper.events turns)) (CellEvent.handOffs (Sweeper.events turns)) →
      CellEvent.writes (Sweeper.events turns') = CellEvent.writes (Sweeper.events turns) →
      (∀ h, h ∈ CellEvent.handOffs (Sweeper.events turns') ↔ h ∈ CellEvent.handOffs (Sweeper.events turns)) →
      let (sweeper, cells) := Sweeper.background.run s turns'
      (sweeper.shutdown cells).2 = (Sweeper.prompt.run s turns).2 := by
  refine ⟨fun events events' hdefer hwrites hsame => CellEvent.run_congr hs hdefer hwrites hsame,
    fun turns turns' hdefer hwrites hsame => ?_⟩
  obtain ⟨events', hwrites', hhandOffs', hcells⟩ := Sweeper.exists_events [] 0 s turns'
  rw [List.nil_append] at hhandOffs'
  show ((Sweeper.background.run s turns').1.shutdown (Sweeper.background.run s turns').2).2 = _
  rw [Sweeper.run_prompt]
  refine hcells.trans (CellEvent.run_congr hs hdefer (hwrites'.trans hwrites) fun h => ?_)
  rw [hhandOffs', hsame]

namespace TwinVersions

/-- A row with versions of two transactions that began at the same time. -/
def cells : CellStore :=
  (({} : CellStore).put [1] { timestamp := ⟨5⟩, writer := ⟨1⟩, value := some [1] }).put [1]
    { timestamp := ⟨5⟩, writer := ⟨2⟩, value := some [2] }

def version : Cell := { timestamp := ⟨5⟩, writer := ⟨3⟩, value := some [3] }

/-- One version goes and the other one is marked, while a third transaction writes. -/
def turns : List Sweeper.Turn :=
  [.receive (.rolledBack [1] ⟨1⟩), .receive (.committed [1] ⟨2⟩ ⟨6⟩), .write [1] version]

/-- The same, with a worker that does not keep up and a hand-off that is left twice. -/
def lateTurns : List Sweeper.Turn :=
  [.receive (.committed [1] ⟨2⟩ ⟨6⟩), .write [1] version, .work, .receive (.rolledBack [1] ⟨1⟩),
    .receive (.committed [1] ⟨2⟩ ⟨6⟩)]

end TwinVersions

/-- Two versions are cleaned up late and leave what they leave if they are cleaned up at once. -/
theorem sweeps_deferrable_twinVersions :
    (Sweeper.prompt.run TwinVersions.cells TwinVersions.turns).2.versions [1] =
      [{ timestamp := ⟨5⟩, writer := ⟨2⟩, value := some [2], commit := some ⟨6⟩ }, TwinVersions.version] ∧
    CellEvent.run (Sweeper.events TwinVersions.lateTurns) TwinVersions.cells =
      CellEvent.run (Sweeper.events TwinVersions.turns) TwinVersions.cells ∧
    let (sweeper, cells) := Sweeper.background.run TwinVersions.cells TwinVersions.lateTurns
    (sweeper.shutdown cells).2 = (Sweeper.prompt.run TwinVersions.cells TwinVersions.turns).2 := by
  have hs : TwinVersions.cells.Reachable := (CellStore.Reachable.empty.put _ _).put _ _
  have hdefer : Deferrable (CellEvent.writes (Sweeper.events TwinVersions.turns))
      (CellEvent.handOffs (Sweeper.events TwinVersions.turns)) := ⟨by decide, by decide⟩
  have hsame : ∀ h, h ∈ CellEvent.handOffs (Sweeper.events TwinVersions.lateTurns) ↔
      h ∈ CellEvent.handOffs (Sweeper.events TwinVersions.turns) := by
    intro h
    simp only [TwinVersions.lateTurns, TwinVersions.turns, Sweeper.events, CellEvent.handOffs,
      Sweeper.Turn.event?, CellEvent.handOff?, List.filterMap_cons, List.filterMap_nil, List.mem_cons,
      List.not_mem_nil, or_false]
    tauto
  exact ⟨by decide, (CellStore.sweeps_deferrable hs).1 _ _ hdefer rfl hsame,
    (CellStore.sweeps_deferrable hs).2 _ TwinVersions.lateTurns hdefer rfl hsame⟩

end Multiversion
