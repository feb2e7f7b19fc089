import Multiversion.Pipeline.WorkerPool

/-!
# Workers and their jobs

Callers and workers of a pool take turns at its lock, in any order.  A worker that finds the queue empty
goes to sleep, and only a new job, a new limit or the end of the pool wakes it; so what has to be shown is
that no wake-up is lost and that the workers that retire leave somebody behind.

* `WorkerPool.Step` — one critical section; `WorkerPool.Turned` — all that a worker's turn can do;
* `WorkerPool.Attended` — jobs that wait have a worker that is awake.  It rests on a pool above its limit
  having no sleepers: they are all woken when the limit falls, and nobody goes to sleep before enough
  workers have retired;
* `WorkerPool.Journal` — a pool with the jobs that it has accepted, started and ended so far.

Main statement: `WorkerPool.neither_loses_nor_strands` — what holds after any interleaving of steps.
-/

namespace Multiversion

namespace WorkerPool

variable {α : Type}

/-- A critical section of a caller or of a worker. -/
inductive Step (α : Type) where
  | execute (job : α)
  | resize (limit : Nat)
  | stop
  | turn
  | rise
  | finish (job : α)
  deriving DecidableEq, Repr

/-- The pool after a step. -/
def step [BEq α] (p : WorkerPool α) : Step α → WorkerPool α
  | .execute job => (p.execute job).2
  | .resize limit => p.resize limit
  | .stop => p.stop
  | .turn => p.turn
  | .rise => p.rise
  | .finish job => p.finish job

/-- The number of workers that do not wait to be woken. -/
def awake (p : WorkerPool α) : Nat := p.starting + p.woken + p.running.length

theorem workers_eq (p : WorkerPool α) : p.workers = p.awake + p.asleep := by
  simp only [workers, awake]
  omega

/-- What a worker's turn can do to a pool. -/
inductive Turned (p : WorkerPool α) : WorkerPool α → Prop
  | nobody (hstarting : p.starting = 0) : Turned p p
  | retire {n : Nat} (hstarting : p.starting = n + 1) (hretires : p.retires = true) :
      Turned p { p with starting := n }
  | sleep {n : Nat} (hstarting : p.starting = n + 1) (hretires : p.retires = false)
      (hqueue : p.queue = []) : Turned p { p with starting := n, asleep := p.asleep + 1 }
  | take {n : Nat} {job : α} {rest : List α} (hstarting : p.starting = n + 1)
      (hretires : p.retires = false) (hqueue : p.queue = job :: rest) :
      Turned p { p with starting := n, queue := rest, running := p.running ++ [job] }

theorem turned_turn (p : WorkerPool α) : p.Turned p.turn := by
  unfold turn
  split
  · rename_i hstarting
    exact .nobody hstarting
  · rename_i n hstarting
    split
    · rename_i hretires
      exact .retire hstarting hretires
    · rename_i hstays
      have hretires : p.retires = false := Bool.eq_false_iff.2 hstays
      split
      · rename_i hqueue
        exact .sleep hstarting hretires hqueue
      · rename_i job rest hqueue
        exact .take hstarting hretires hqueue

/-- What accepting a job can do to a pool. -/
inductive Accepted (p : WorkerPool α) (job : α) : WorkerPool α → Prop
  | hire (hidle : p.idle = 0) (hroom : p.workers < p.limit) :
      Accepted p job { p with queue := p.queue ++ [job], starting := p.starting + 1 }
  | wake {n : Nat} (hasleep : p.asleep = n + 1) :
      Accepted p job { p with queue := p.queue ++ [job], asleep := n, woken := p.woken + 1 }
  | leave (hasleep : p.asleep = 0) (hbusy : 0 < p.woken ∨ p.limit ≤ p.workers) :
      Accepted p job { p with queue := p.queue ++ [job] }

/-- A pool that has not been stopped accepts every job. -/
theorem execute_cases (p : WorkerPool α) (job : α) :
    p.stopped = true ∧ p.execute job = (.error .shutdown, p) ∨
      p.stopped = false ∧ (p.execute job).1 = .ok () ∧ p.Accepted job (p.execute job).2 := by
  have hexecute : p.execute job =
      if p.stopped then (.error .shutdown, p)
      else if p.idle = 0 && p.workers < p.limit then
        (.ok (), { p with queue := p.queue ++ [job], starting := p.starting + 1 })
      else (.ok (), wakeOne { p with queue := p.queue ++ [job] }) := rfl
  rw [hexecute]
  split
  · rename_i hstopped
    exact .inl ⟨hstopped, rfl⟩
  · rename_i hopen
    refine .inr ⟨Bool.eq_false_iff.2 hopen, ?_⟩
    split
    · rename_i hhire
      obtain ⟨hidle, hroom⟩ := Bool.and_eq_true_iff.1 hhire
      exact ⟨rfl, .hire (of_decide_eq_true hidle) (of_decide_eq_true hroom)⟩
    · rename_i hfull
      refine ⟨rfl, ?_⟩
      unfold wakeOne
      split
      · rename_i hasleep
        refine .leave hasleep ?_
        have hnotBoth : ¬ (p.idle = 0 ∧ p.workers < p.limit) := by simpa using hfull
        change p.asleep = 0 at hasleep
        simp only [idle] at hnotBoth
        omega
      · rename_i n hasleep
        exact .wake hasleep

/-- The pool in which a woken worker has got up. -/
def roused (p : WorkerPool α) : WorkerPool α :=
  match p.woken with
  | 0 => p
  | n + 1 => { p with woken := n, starting := p.starting + 1 }

/-- A woken worker that gets up takes its turn like one that is starting. -/
theorem rise_eq (p : WorkerPool α) : p.rise = p ∧ p.woken = 0 ∨ p.rise = p.roused.turn := by
  unfold rise roused
  split
  · rename_i hwoken
    exact .inl ⟨rfl, hwoken⟩
  · rename_i n hwoken
    simp only [hwoken]
    exact .inr trivial

theorem awake_roused (p : WorkerPool α) : p.roused.awake = p.awake := by
  unfold roused
  split
  · rfl
  · rename_i n hwoken
    simp only [awake, hwoken]
    omega

theorem roused_fields (p : WorkerPool α) :
    p.roused.limit = p.limit ∧ p.roused.queue = p.queue ∧ p.roused.asleep = p.asleep ∧
      p.roused.running = p.running ∧ p.roused.stopped = p.stopped := by
  unfold roused
  split <;> exact ⟨rfl, rfl, rfl, rfl, rfl⟩

theorem workers_roused (p : WorkerPool α) : p.roused.workers = p.workers := by
  obtain ⟨-, -, hasleep, -, -⟩ := p.roused_fields
  rw [workers_eq, workers_eq, awake_roused, hasleep]

theorem retires_iff (p : WorkerPool α) :
    p.retires = true ↔ p.limit < p.workers ∨ p.stopped = true ∧ p.queue = [] := by
  simp [retires]

/-- A pool whose waiting jobs have a worker that is awake. -/
structure Attended (p : WorkerPool α) : Prop where
  limit_pos : 0 < p.limit
  -- Above the limit everybody is awake.
  alert : p.limit < p.workers → p.asleep = 0
  attended : p.queue ≠ [] → 0 < p.awake

theorem attended_ofLimit (limit : Nat) : (ofLimit limit : WorkerPool α).Attended where
  limit_pos := Nat.lt_of_lt_of_le Nat.zero_lt_one (Nat.le_max_right _ _)
  alert _ := rfl
  attended h := absurd rfl h

namespace Attended

variable {p : WorkerPool α}

/-- A worker that retires, goes to sleep or takes a job leaves the waiting jobs attended. -/
theorem turned (h : p.Attended) {p' : WorkerPool α} (hturned : p.Turned p') : p'.Attended := by
  have hlimit := h.limit_pos
  cases hturned with
  | nobody => exact h
  | @retire n hstarting hretires =>
      have hworkers := p.workers_eq
      have halert := h.alert
      have hawake : p.awake = n + 1 + p.woken + p.running.length := by rw [awake, hstarting]
      refine ⟨hlimit, fun habove => halert ?_, fun hqueue => ?_⟩
      · rw [workers_eq] at habove
        simp only [awake] at habove
        omega
      · -- The queue is not empty, so the worker was surplus, and the others are awake.
        have hsurplus : p.limit < p.workers := by
          rcases p.retires_iff.1 hretires with hsurplus | ⟨-, hempty⟩
          · exact hsurplus
          · exact absurd hempty hqueue
        have hasleep := halert hsurplus
        simp only [awake]
        omega
  | @sleep n hstarting hretires hqueue =>
      refine ⟨hlimit, fun habove => ?_, fun hne => absurd hqueue hne⟩
      have hwithin : ¬ p.limit < p.workers := fun hsurplus => by
        simp [p.retires_iff.2 (.inl hsurplus)] at hretires
      simp only [workers] at habove hwithin
      omega
  | @take n job rest hstarting hretires hqueue =>
      have hwithin : ¬ p.limit < p.workers := fun hsurplus => by
        simp [p.retires_iff.2 (.inl hsurplus)] at hretires
      refine ⟨hlimit, fun habove => absurd habove ?_, fun _ => ?_⟩
      · simp only [workers, List.length_append, List.length_singleton] at hwithin ⊢
        omega
      · simp only [awake, List.length_append, List.length_singleton]
        omega

theorem turn (h : p.Attended) : p.turn.Attended := h.turned p.turned_turn

theorem roused (h : p.Attended) : p.roused.Attended := by
  obtain ⟨hlimit, hqueue, hasleep, -, -⟩ := p.roused_fields
  refine ⟨hlimit ▸ h.limit_pos, fun habove => ?_, fun hne => ?_⟩
  · rw [hlimit, p.workers_roused] at habove
    rw [hasleep, h.alert habove]
  · rw [hqueue] at hne
    rw [p.awake_roused]
    exact h.attended hne

theorem rise (h : p.Attended) : p.rise.Attended := by
  rcases p.rise_eq with ⟨hsame, -⟩ | hturn
  · rwa [hsame]
  · rw [hturn]
    exact h.roused.turn

/-- A job that ends leaves its worker awake. -/
theorem finish [BEq α] [LawfulBEq α] (h : p.Attended) (job : α) : (p.finish job).Attended := by
  unfold WorkerPool.finish
  split
  · rename_i hrunning
    have hmem : job ∈ p.running := List.contains_iff_mem.1 hrunning
    have hlength := List.length_erase_of_mem hmem
    have hpos := List.length_pos_of_mem hmem
    have hawake : p.starting + 1 + p.woken + (p.running.erase job).length = p.awake := by
      simp only [awake]
      omega
    refine ⟨h.limit_pos, fun habove => h.alert ?_, fun hne => ?_⟩
    · simp only [workers] at habove ⊢
      omega
    · exact Nat.lt_of_lt_of_eq (h.attended hne) hawake.symm
  · exact h

/-- Everybody is woken when the limit changes or the pool is stopped. -/
theorem wakeAll (h : p.queue ≠ [] → 0 < p.awake) (hlimit : 0 < p.limit) : p.wakeAll.Attended where
  limit_pos := hlimit
  alert _ := rfl
  attended hne := by
    have hawake := h hne
    simp only [awake, WorkerPool.wakeAll] at hawake ⊢
    omega

/-- A new job has a worker started, wakes one, or finds one that is awake. -/
theorem accepted (h : p.Attended) {job : α} {p' : WorkerPool α} (haccepted : p.Accepted job p') :
    p'.Attended := by
  have hlimit := h.limit_pos
  have halert := h.alert
  have hworkers := p.workers_eq
  cases haccepted with
  | hire hidle hroom =>
      refine ⟨hlimit, fun habove => ?_, fun _ => ?_⟩
      · simp only [workers] at habove hroom
        omega
      · simp only [awake]
        omega
  | @wake n hasleep =>
      refine ⟨hlimit, fun habove => ?_, fun _ => ?_⟩
      · have hnone : p.asleep = 0 := halert (by
          simp only [workers] at habove ⊢
          omega)
        omega
      · simp only [awake]
        omega
  | leave hasleep hbusy =>
      refine ⟨hlimit, fun _ => hasleep, fun _ => ?_⟩
      simp only [awake] at hworkers ⊢
      omega

theorem execute (h : p.Attended) (job : α) : (p.execute job).2.Attended := by
  rcases p.execute_cases job with ⟨-, hrefused⟩ | ⟨-, -, haccepted⟩
  · rwa [hrefused]
  · exact h.accepted haccepted

/-- **Every step keeps the waiting jobs attended.** -/
theorem step [BEq α] [LawfulBEq α] (h : p.Attended) (s : Step α) : (p.step s).Attended := by
  cases s with
  | execute job => exact h.execute job
  | resize limit =>
      exact wakeAll h.attended (Nat.lt_of_lt_of_le Nat.zero_lt_one (Nat.le_max_right _ _))
  | stop => exact wakeAll h.attended h.limit_pos
  | turn => exact h.turn
  | rise => exact h.rise
  | finish job => exact h.finish job

end Attended

/-- **Only surplus workers retire**, and those with nothing left to do: when the number of workers falls,
one worker has taken its turn, and the pool was above its limit, or it was stopped and its queue empty. -/
theorem retires_of_workers_lt [BEq α] [LawfulBEq α] {p : WorkerPool α} {s : Step α}
    (h : (p.step s).workers < p.workers) :
    (s = .turn ∨ s = .rise) ∧ (p.step s).workers + 1 = p.workers ∧
      (p.limit < p.workers ∨ p.stopped = true ∧ p.queue = []) := by
  have hturn : ∀ q : WorkerPool α, q.turn.workers = q.workers ∨
      q.turn.workers + 1 = q.workers ∧ q.retires = true := by
    intro q
    have hturned := q.turned_turn
    generalize q.turn = q' at hturned
    cases hturned with
    | nobody => exact .inl rfl
    | retire hstarting hretires =>
        refine .inr ⟨?_, hretires⟩
        simp only [workers, hstarting]
        omega
    | sleep hstarting =>
        left
        simp only [workers, hstarting]
        omega
    | take hstarting =>
        left
        simp only [workers, hstarting, List.length_append, List.length_singleton]
        omega
  cases s with
  | execute job =>
      rcases p.execute_cases job with ⟨-, hrefused⟩ | ⟨-, -, haccepted⟩
      · rw [step, hrefused] at h
        exact absurd h (Nat.lt_irrefl _)
      · rw [step] at h
        generalize (p.execute job).2 = p' at h haccepted
        cases haccepted <;> simp only [workers] at h <;> omega
  | resize limit =>
      simp only [step, resize, wakeAll, workers] at h
      omega
  | stop =>
      simp only [step, stop, wakeAll, workers] at h
      omega
  | turn =>
      rcases hturn p with hsame | ⟨hone, hretires⟩
      · exact absurd h (by simp [step, hsame])
      · exact ⟨.inl rfl, hone, p.retires_iff.1 hretires⟩
  | rise =>
      rcases p.rise_eq with ⟨hsame, -⟩ | hrise
      · exact absurd h (by simp [step, hsame])
      · obtain ⟨hlimit, hqueue, -, -, hstopped⟩ := p.roused_fields
        have hstep : p.step .rise = p.roused.turn := hrise
        rw [hstep] at h ⊢
        rcases hturn p.roused with hsame | ⟨hone, hretires⟩
        · rw [hsame, workers_roused] at h
          exact absurd h (Nat.lt_irrefl _)
        · rw [workers_roused] at hone
          refine ⟨.inr rfl, hone, ?_⟩
          rwa [retires_iff, workers_roused, hlimit, hqueue, hstopped] at hretires
  | finish job =>
      refine absurd h (Nat.not_lt.2 ?_)
      rw [step, finish]
      split
      · rename_i hrunning
        have hlength := List.length_erase_of_mem (List.contains_iff_mem.1 hrunning)
        simp only [workers]
        omega
      · exact Nat.le_refl _

/-- The job that a step has accepted. -/
def accepts (p : WorkerPool α) : Step α → List α
  | .execute job =>
      match (p.execute job).1 with
      | .ok () => [job]
      | .error _ => []
  | _ => []

/-- The jobs that run after a step and did not run before it. -/
def starts [BEq α] (p : WorkerPool α) (s : Step α) : List α :=
  (p.step s).running.drop p.running.length

/-- The job that has ended with a step. -/
def ends [BEq α] (p : WorkerPool α) : Step α → List α
  | .finish job => if p.running.contains job then [job] else []
  | _ => []

/-- A turn moves jobs from the head of the queue to the running ones. -/
theorem Turned.moves {p p' : WorkerPool α} (h : p.Turned p') :
    p.queue = p'.running.drop p.running.length ++ p'.queue ∧
      p'.running = p.running ++ p'.running.drop p.running.length := by
  cases h with
  | nobody => simp
  | retire => simp
  | sleep => simp
  | take _ _ hqueue => simp [hqueue]

/-- **A step loses no job**: it is accepted at the end of the queue, started from its head, and runs until
it ends. -/
theorem moves_step [BEq α] [LawfulBEq α] (p : WorkerPool α) (s : Step α) :
    p.queue ++ p.accepts s = p.starts s ++ (p.step s).queue ∧
      (p.running ++ p.starts s).Perm (p.ends s ++ (p.step s).running) := by
  have hturn : ∀ q : WorkerPool α, q.queue = p.queue → q.running = p.running →
      p.queue = q.turn.running.drop p.running.length ++ q.turn.queue ∧
        (p.running ++ q.turn.running.drop p.running.length).Perm q.turn.running := by
    intro q hqueue hrunning
    obtain ⟨hmoved, happended⟩ := q.turned_turn.moves
    rw [hqueue, hrunning] at hmoved
    rw [hrunning] at happended
    exact ⟨hmoved, .of_eq happended.symm⟩
  cases s with
  | execute job =>
      simp only [accepts, starts, ends, step]
      rcases p.execute_cases job with ⟨-, hrefused⟩ | ⟨-, hok, haccepted⟩
      · simp [hrefused]
      · rw [hok]
        generalize (p.execute job).2 = p' at haccepted
        cases haccepted <;> simp
  | resize limit => simp [accepts, starts, ends, step, resize, wakeAll]
  | stop => simp [accepts, starts, ends, step, stop, wakeAll]
  | turn => simpa [accepts, starts, ends, step] using hturn p rfl rfl
  | rise =>
      obtain ⟨-, hqueue, -, hrunning, -⟩ := p.roused_fields
      rcases p.rise_eq with ⟨hsame, -⟩ | hrise
      · simp [accepts, starts, ends, step, hsame]
      · simpa [accepts, starts, ends, step, hrise] using hturn p.roused hqueue hrunning
  | finish job =>
      simp only [accepts, starts, ends, step, finish]
      split
      · rename_i hrunning
        have hlength := List.length_erase_of_mem (List.contains_iff_mem.1 hrunning)
        have hnone : (p.running.erase job).drop p.running.length = [] :=
          List.drop_eq_nil_of_le (by omega)
        simpa [hnone] using List.perm_cons_erase (List.contains_iff_mem.1 hrunning)
      · simp

/-- A pool with the jobs that it has accepted, started and ended so far, each in order. -/
structure Journal (α : Type) where
  pool : WorkerPool α
  accepted : List α := []
  started : List α := []
  ended : List α := []

namespace Journal

/-- A pool with nothing behind it. -/
def ofLimit (limit : Nat) : Journal α := { pool := .ofLimit limit }

/-- The journal after a step. -/
def next [BEq α] (j : Journal α) (s : Step α) : Journal α where
  pool := j.pool.step s
  accepted := j.accepted ++ j.pool.accepts s
  started := j.started ++ j.pool.starts s
  ended := j.ended ++ j.pool.ends s

/-- The journal after some steps. -/
def run [BEq α] (j : Journal α) (steps : List (Step α)) : Journal α := steps.foldl next j

/-- A journal in which every job has its place. -/
structure Complete (j : Journal α) : Prop where
  attended : j.pool.Attended
  queued : j.accepted = j.started ++ j.pool.queue
  started : j.started.Perm (j.ended ++ j.pool.running)

theorem complete_ofLimit (limit : Nat) : (ofLimit limit : Journal α).Complete :=
  ⟨attended_ofLimit limit, rfl, .refl _⟩

variable [BEq α] [LawfulBEq α] {j : Journal α}

/-- A step keeps a journal complete. -/
theorem Complete.next (h : j.Complete) (s : Step α) : (j.next s).Complete := by
  obtain ⟨hqueue, hrunning⟩ := j.pool.moves_step s
  refine ⟨h.attended.step s, ?_, ?_⟩
  · show j.accepted ++ j.pool.accepts s = j.started ++ j.pool.starts s ++ (j.pool.step s).queue
    rw [h.queued, List.append_assoc, List.append_assoc, hqueue]
  · show (j.started ++ j.pool.starts s).Perm (j.ended ++ j.pool.ends s ++ (j.pool.step s).running)
    have hstarted := h.started.append_right (j.pool.starts s)
    rw [List.append_assoc] at hstarted ⊢
    exact hstarted.trans (hrunning.append_left j.ended)

theorem Complete.run (h : j.Complete) (steps : List (Step α)) : (j.run steps).Complete := by
  induction steps generalizing j with
  | nil => exact h
  | cons s rest ih => exact ih (h.next s)

end Journal

/-- **A pool neither loses nor strands a job.**  After any interleaving of the critical sections of callers
and workers, on a pool of any limit:

* while the queue is not empty, some worker does not wait to be woken;
* whatever step comes next, if the number of workers falls then by one, through a worker's turn, and only if
  it was above the limit, or the pool had been stopped and its queue was empty;
* the jobs accepted so far are those started so far followed by those in the queue, all in the order in which
  they were accepted: so those started are a prefix of them, each started once;
* the jobs started so far are those that have ended and those that are running. -/
theorem neither_loses_nor_strands [DecidableEq α] (limit : Nat) (steps : List (Step α)) :
    let j := (Journal.ofLimit limit).run steps
    (j.pool.queue ≠ [] → 0 < j.pool.starting + j.pool.woken + j.pool.running.length) ∧
      (∀ s, (j.pool.step s).workers < j.pool.workers →
        (s = .turn ∨ s = .rise) ∧ (j.pool.step s).workers + 1 = j.pool.workers ∧
          (j.pool.limit < j.pool.workers ∨ j.pool.stopped = true ∧ j.pool.queue = [])) ∧
      j.accepted = j.started ++ j.pool.queue ∧
      j.started.Perm (j.ended ++ j.pool.running) := by
  intro j
  have hcomplete : j.Complete := (Journal.complete_ofLimit limit).run steps
  exact ⟨hcomplete.attended.attended, fun s => retires_of_workers_lt, hcomplete.queued,
    hcomplete.started⟩

end WorkerPool

end Multiversion
