import Multiversion.Pipeline.Workshop
import Multiversion.Proofs.Pipeline.Flushes
import Multiversion.Proofs.Pipeline.Workers

/-!
# Workers that carry out flushes in turn

The workers of a workshop go on while its callers are at work: they look for jobs, and jobs that run send
their rows and end, in any order.  While one job at most can run, they end in the order in which they were
handed over.

* `Workshop.Shift` — what happens next on the workers' side; `Workshop.shifts` — some of that;
* `Workshop.InTurn` — a workshop in which one job at most can run: it has one worker only, or a buffer that
  keeps one flush in flight only;
* `Workshop.Proceeds` — the oldest jobs have been carried out, and nothing else.

Main statements: `Workshop.InTurn.shifts` — whatever the workers do, the oldest jobs are carried out;
`Workshop.InTurn.rest` — a workshop comes to rest without jobs.
-/

namespace Multiversion

namespace WorkerPool

variable {α : Type} {p p' p'' : WorkerPool α}

/-- The jobs that have not ended: those that run, and then those in the queue. -/
def jobs (p : WorkerPool α) : List α := p.running ++ p.queue

/-- Workers that look for jobs leave the jobs as they are, and do not become more. -/
structure SameWork (p p' : WorkerPool α) : Prop where
  jobs : p'.jobs = p.jobs
  limit : p'.limit = p.limit
  stopped : p'.stopped = p.stopped
  workers : p'.workers ≤ p.workers

namespace SameWork

theorem refl (p : WorkerPool α) : p.SameWork p := ⟨rfl, rfl, rfl, Nat.le_refl _⟩

theorem trans (h : p.SameWork p') (h' : p'.SameWork p'') : p.SameWork p'' :=
  ⟨h'.jobs.trans h.jobs, h'.limit.trans h.limit, h'.stopped.trans h.stopped,
    Nat.le_trans h'.workers h.workers⟩

end SameWork

theorem Turned.sameWork (h : p.Turned p') : p.SameWork p' := by
  cases h with
  | nobody => exact .refl p
  | retire hstarting =>
      refine ⟨rfl, rfl, rfl, ?_⟩
      simp only [workers, hstarting]
      omega
  | sleep hstarting =>
      refine ⟨rfl, rfl, rfl, ?_⟩
      simp only [workers, hstarting]
      omega
  | take hstarting _ hqueue =>
      refine ⟨by simp [jobs, hqueue], rfl, rfl, ?_⟩
      simp only [workers, hstarting, List.length_append, List.length_singleton]
      omega

theorem sameWork_turn (p : WorkerPool α) : p.SameWork p.turn := p.turned_turn.sameWork

theorem sameWork_rise (p : WorkerPool α) : p.SameWork p.rise := by
  obtain ⟨hlimit, hqueue, -, hrunning, hstopped⟩ := p.roused_fields
  rcases p.rise_eq with ⟨hsame, -⟩ | hrise
  · rw [hsame]
    exact .refl p
  · rw [hrise]
    refine SameWork.trans ⟨?_, hlimit, hstopped, ?_⟩ p.roused.sameWork_turn
    · rw [jobs, jobs, hqueue, hrunning]
    · exact Nat.le_of_eq p.workers_roused

/-- An accepted job is the last one of all, and a worker is hired for it only below the limit. -/
theorem Accepted.jobs_eq {job : α} (h : p.Accepted job p') :
    p'.jobs = p.jobs ++ [job] ∧ p'.limit = p.limit ∧ p'.stopped = p.stopped ∧
      p'.workers ≤ max p.workers p.limit := by
  cases h with
  | hire _ hroom =>
      refine ⟨(List.append_assoc _ _ _).symm, rfl, rfl, ?_⟩
      simp only [workers] at hroom ⊢
      omega
  | wake hasleep =>
      refine ⟨(List.append_assoc _ _ _).symm, rfl, rfl, ?_⟩
      simp only [workers, hasleep]
      omega
  | leave => exact ⟨(List.append_assoc _ _ _).symm, rfl, rfl, Nat.le_max_left _ _⟩

/-- A turn uses up a worker that is starting. -/
theorem turn_starting (p : WorkerPool α) :
    p.turn.starting = p.starting - 1 ∧ p.turn.woken = p.woken := by
  have hturned := p.turned_turn
  generalize p.turn = q at hturned
  cases hturned with
  | nobody hstarting => simp [hstarting]
  | retire hstarting => simp [hstarting]
  | sleep hstarting => simp [hstarting]
  | take hstarting => simp [hstarting]

theorem rise_woken (p : WorkerPool α) : p.rise.woken = p.woken - 1 := by
  unfold rise
  split
  · rename_i hwoken
    simp [hwoken]
  · rename_i n hwoken
    rw [(turn_starting _).2, hwoken]
    rfl

theorem repeat_rise (n : Nat) (p : WorkerPool α) :
    p.SameWork (Nat.repeat rise n p) ∧ (Nat.repeat rise n p).woken = p.woken - n ∧
      (p.Attended → (Nat.repeat rise n p).Attended) := by
  induction n with
  | zero => exact ⟨.refl p, rfl, id⟩
  | succ n ih =>
      obtain ⟨hsame, hwoken, hattended⟩ := ih
      rw [Nat.repeat, rise_woken, hwoken]
      exact ⟨hsame.trans (sameWork_rise _), by omega, fun h => (hattended h).rise⟩

theorem repeat_turn (n : Nat) (p : WorkerPool α) :
    p.SameWork (Nat.repeat turn n p) ∧ (Nat.repeat turn n p).starting = p.starting - n ∧
      (Nat.repeat turn n p).woken = p.woken ∧ (p.Attended → (Nat.repeat turn n p).Attended) := by
  induction n with
  | zero => exact ⟨.refl p, rfl, rfl, id⟩
  | succ n ih =>
      obtain ⟨hsame, hstarting, hwoken, hattended⟩ := ih
      obtain ⟨hused, hkept⟩ := (Nat.repeat turn n p).turn_starting
      rw [Nat.repeat, hused, hkept, hstarting]
      exact ⟨hsame.trans (sameWork_turn _), by omega, hwoken, fun h => (hattended h).turn⟩

/-- **Workers settle**: nobody is about to look for a job any more, so that in an attended pool somebody
runs a job if there is one. -/
theorem settle_spec (p : WorkerPool α) :
    p.SameWork p.settle ∧ (p.Attended → p.settle.Attended ∧
      (p.settle.jobs ≠ [] → p.settle.running ≠ [])) := by
  obtain ⟨hrisen, hwoken, hattended⟩ := repeat_rise p.woken p
  obtain ⟨hturned, hstarting, hwoken', hattended'⟩ :=
    repeat_turn (Nat.repeat rise p.woken p).starting (Nat.repeat rise p.woken p)
  refine ⟨hrisen.trans hturned, fun h => ⟨hattended' (hattended h), fun hjobs hnone => ?_⟩⟩
  have hqueue : p.settle.queue ≠ [] := by
    rw [jobs, hnone] at hjobs
    exact hjobs
  have hawake := (hattended' (hattended h)).attended hqueue
  change p.settle.starting = _ at hstarting
  change p.settle.woken = _ at hwoken'
  change 0 < p.settle.awake at hawake
  simp only [awake, hstarting, hwoken', hwoken, hnone, List.length_nil] at hawake
  omega

end WorkerPool

namespace Workshop

variable {τ : Type}

/-- The workshop when the flush of a ticket has ended: it has come to rest if there was no result yet. -/
def awaited (t : Transport τ) (w : Workshop τ) (ticket : Ticket) : Workshop τ :=
  if (w.result? ticket).isSome then w else w.rest t

/-- What happens next on the workers' side. -/
inductive Shift where
  | turn
  | rise
  -- The running job of an index sends its rows and ends.
  | deliver (index : Nat)
  deriving DecidableEq, Repr

/-- The workshop after a shift. -/
def shift (t : Transport τ) (w : Workshop τ) : Shift → Workshop τ
  | .turn => { w with pool := w.pool.turn }
  | .rise => { w with pool := w.pool.rise }
  | .deliver index =>
      match w.pool.running[index]? with
      | none => w
      | some job => w.deliver t job

/-- The workshop after some shifts. -/
def shifts (t : Transport τ) (w : Workshop τ) (some : List Shift) : Workshop τ :=
  some.foldl (shift t) w

variable {t : Transport τ} {txn : View} (s : t.RowByRow txn) (flushes : Nat)

/-- A workshop in which one job at most can run, because it has one worker only, or because `flushes`, the
number of flushes that are kept in flight, is one at most.  The jobs of `done` have been carried out, in
this order. -/
structure InTurn (done : List FlushJob) (w : Workshop τ) : Prop where
  attended : w.pool.Attended
  stopped : w.pool.stopped = false
  alone : w.pool.limit ≤ 1 ∧ w.pool.workers ≤ 1 ∨ flushes ≤ 1 ∧ w.pool.jobs.length ≤ 1
  world : w.world = s.after (done.flatMap FlushJob.rows)
  txn : ∀ j ∈ w.pool.jobs, j.txn = txn
  ascending : w.pool.jobs.Pairwise fun j j' => j.ticket < j'.ticket
  fresh : ∀ j ∈ w.pool.jobs, j.ticket < w.nextTicket
  older : ∀ r ∈ w.results, r.1 < w.nextTicket
  -- A job that has not ended has no result.
  waiting : ∀ j ∈ w.pool.jobs, ∀ r ∈ w.results, r.1 ≠ j.ticket

/-- The oldest jobs of a workshop have been carried out. -/
def Proceeds (done : List FlushJob) (w w' : Workshop τ) : Prop :=
  ∃ ended, w.pool.jobs = ended ++ w'.pool.jobs ∧ InTurn s flushes (done ++ ended) w'

variable {s flushes} {done : List FlushJob} {w w' : Workshop τ}

namespace InTurn

theorem proceeds (h : InTurn s flushes done w) : Proceeds s flushes done w w :=
  ⟨[], rfl, by rwa [List.append_nil]⟩

theorem running_le (h : InTurn s flushes done w) : w.pool.running.length ≤ 1 := by
  rcases h.alone with ⟨-, hworkers⟩ | ⟨-, hjobs⟩
  · simp only [WorkerPool.workers] at hworkers
    omega
  · simp only [WorkerPool.jobs, List.length_append] at hjobs
    omega

/-- Workers that look for jobs. -/
theorem sameWork (h : InTurn s flushes done w) {p : WorkerPool FlushJob} (hsame : w.pool.SameWork p)
    (hattended : p.Attended) : Proceeds s flushes done w { w with pool := p } := by
  have hjobs := hsame.jobs
  refine ⟨[], hjobs.symm, ?_⟩
  rw [List.append_nil]
  exact {
    attended := hattended
    stopped := hsame.stopped.trans h.stopped
    alone := by
      have hworkers := hsame.workers
      rw [hjobs, hsame.limit]
      exact h.alone.imp_left fun ⟨hlimit, hle⟩ => ⟨hlimit, Nat.le_trans hworkers hle⟩
    world := h.world
    txn := by simpa only [hjobs] using h.txn
    ascending := by simpa only [hjobs] using h.ascending
    fresh := by simpa only [hjobs] using h.fresh
    older := h.older
    waiting := by simpa only [hjobs] using h.waiting }

/-- **A job that ends** is the oldest one: its rows are sent after those of the jobs before it. -/
theorem deliver (h : InTurn s flushes done w) {job : FlushJob} (hjob : job ∈ w.pool.running) :
    w.pool.jobs = job :: (w.deliver t job).pool.jobs ∧
      InTurn s flushes (done ++ [job]) (w.deliver t job) := by
  have hrunning : w.pool.running = [job] := by
    have hle := h.running_le
    cases hlist : w.pool.running with
    | nil => simp [hlist] at hjob
    | cons first rest =>
        rw [hlist] at hle hjob
        have hnone : rest = [] := List.eq_nil_of_length_eq_zero (by simpa using hle)
        subst hnone
        rw [List.mem_singleton.1 hjob]
  have hjobs : w.pool.jobs = job :: w.pool.queue := by rw [WorkerPool.jobs, hrunning]; rfl
  obtain ⟨hfirst, hrest⟩ := List.pairwise_cons.1 (hjobs ▸ h.ascending)
  have hmem : ∀ j ∈ w.pool.queue, j ∈ w.pool.jobs := fun j hj => hjobs ▸ List.mem_cons_of_mem _ hj
  have hhead : job ∈ w.pool.jobs := hjobs ▸ List.mem_cons_self
  obtain ⟨-, hworld⟩ := Flush.run_rowByRow s w.maxRetries job.rows w.pooledStats
    (done.flatMap FlushJob.rows)
  rw [← h.world] at hworld
  have htxn : (Flush.run t w.maxRetries job.txn job.rows w.pooledStats w.world).world =
      (Flush.run t w.maxRetries txn job.rows w.pooledStats w.world).world := by rw [h.txn job hhead]
  have hfinish : w.pool.finish job =
      { w.pool with running := [], starting := w.pool.starting + 1 } := by
    simp [WorkerPool.finish, hrunning]
  have hdeliver : w.deliver t job =
      { w with
        world := (Flush.run t w.maxRetries job.txn job.rows w.pooledStats w.world).world
        pooledStats := (Flush.run t w.maxRetries job.txn job.rows w.pooledStats w.world).stats
        pool := { w.pool with running := [], starting := w.pool.starting + 1 }
        results := w.results ++ [(job.ticket,
          .ok (Flush.run t w.maxRetries job.txn job.rows w.pooledStats w.world).statuses)] } := by
    rw [← hfinish, Workshop.deliver, if_pos (List.contains_iff_mem.2 hjob)]
    rfl
  rw [hdeliver]
  refine ⟨hjobs, ?_⟩
  exact {
    attended := hfinish ▸ h.attended.finish job
    stopped := h.stopped
    alone := by
      refine h.alone.imp ?_ ?_
      · rintro ⟨hlimit, hworkers⟩
        refine ⟨hlimit, ?_⟩
        simp only [WorkerPool.workers, hrunning, List.length_singleton, List.length_nil] at hworkers ⊢
        omega
      · rintro ⟨hflushes, hlength⟩
        refine ⟨hflushes, ?_⟩
        rw [hjobs, List.length_cons] at hlength
        exact Nat.le_of_succ_le hlength
    world := by
      rw [List.flatMap_append, List.flatMap_singleton]
      exact htxn.trans hworld
    txn := fun j hj => h.txn j (hmem j hj)
    ascending := hrest
    fresh := fun j hj => h.fresh j (hmem j hj)
    older := fun r hr => by
      rcases List.mem_append.1 hr with hr | hr
      · exact h.older r hr
      · rw [List.mem_singleton.1 hr]
        exact h.fresh job hhead
    waiting := fun j hj r hr => by
      rcases List.mem_append.1 hr with hr | hr
      · exact h.waiting j (hmem j hj) r hr
      · rw [List.mem_singleton.1 hr]
        exact Nat.ne_of_lt (hfirst j hj) }

theorem shift (h : InTurn s flushes done w) (next : Shift) :
    Proceeds s flushes done w (w.shift t next) := by
  cases next with
  | turn => exact h.sameWork w.pool.sameWork_turn h.attended.turn
  | rise => exact h.sameWork w.pool.sameWork_rise h.attended.rise
  | deliver index =>
      rw [Workshop.shift]
      split
      · exact h.proceeds
      · rename_i job hjob
        obtain ⟨hjobs, hdelivered⟩ := h.deliver (List.mem_of_getElem? hjob)
        exact ⟨[job], hjobs, hdelivered⟩

end InTurn

theorem Proceeds.trans {w'' : Workshop τ} (h : Proceeds s flushes done w w')
    (h' : ∀ done, InTurn s flushes done w' → Proceeds s flushes done w' w'') :
    Proceeds s flushes done w w'' := by
  obtain ⟨ended, hjobs, hturn⟩ := h
  obtain ⟨ended', hjobs', hturn'⟩ := h' _ hturn
  refine ⟨ended ++ ended', ?_, ?_⟩
  · rw [hjobs, hjobs', List.append_assoc]
  · rwa [← List.append_assoc]

namespace InTurn

/-- **Whatever the workers do**, the oldest jobs are carried out, in order. -/
theorem shifts (h : InTurn s flushes done w) (some : List Shift) :
    Proceeds s flushes done w (w.shifts t some) := by
  induction some generalizing w done with
  | nil => exact h.proceeds
  | cons next rest ih => exact (h.shift next).trans fun _ => ih

theorem settle (h : InTurn s flushes done w) :
    Proceeds s flushes done w { w with pool := w.pool.settle } :=
  h.sameWork w.pool.settle_spec.1 (w.pool.settle_spec.2 h.attended).1

/-- The workers settle, and then the job that runs ends. -/
theorem advance (h : InTurn s flushes done w) :
    Proceeds s flushes done w (w.advance t) ∧
      (w.advance t).pool.jobs.length = w.pool.jobs.length - 1 := by
  obtain ⟨hsame, hsettled⟩ := w.pool.settle_spec
  obtain ⟨-, hbusy⟩ := hsettled h.attended
  unfold Workshop.advance
  dsimp only
  split
  · rename_i hnone
    have hjobs : w.pool.settle.jobs = [] := Classical.byContradiction fun hne => hbusy hne hnone
    refine ⟨h.settle, ?_⟩
    rw [← hsame.jobs]
    show w.pool.settle.jobs.length = _
    rw [hjobs]
    rfl
  · rename_i job rest hrunning
    have hjob : job ∈ w.pool.settle.running := by
      rw [hrunning]
      exact List.mem_cons_self
    refine ⟨h.settle.trans fun _ hturn => ⟨[job], hturn.deliver hjob⟩, ?_⟩
    obtain ⟨_, _, hturn⟩ := h.settle
    have hlength := congrArg List.length (hturn.deliver hjob).1
    change w.pool.settle.jobs.length = _ at hlength
    rw [hsame.jobs, List.length_cons] at hlength
    omega

/-- **A workshop comes to rest** without jobs. -/
theorem rest (h : InTurn s flushes done w) :
    Proceeds s flushes done w (w.rest t) ∧ (w.rest t).pool.jobs = [] := by
  have hrepeat : ∀ n, Proceeds s flushes done w (Nat.repeat (Workshop.advance t) n w) ∧
      (Nat.repeat (Workshop.advance t) n w).pool.jobs.length = w.pool.jobs.length - n := by
    intro n
    induction n with
    | zero => exact ⟨h.proceeds, rfl⟩
    | succ n ih =>
        obtain ⟨hproceeds, hlength⟩ := ih
        refine ⟨hproceeds.trans fun _ hturn => hturn.advance.1, ?_⟩
        obtain ⟨_, _, hturn⟩ := hproceeds
        rw [Nat.repeat, hturn.advance.2, hlength]
        omega
  obtain ⟨hproceeds, hlength⟩ := hrepeat (w.pool.queue.length + w.pool.running.length)
  refine ⟨hproceeds.trans fun _ hturn => hturn.settle, List.eq_nil_of_length_eq_zero ?_⟩
  show ((Nat.repeat (Workshop.advance t) _ w).pool.settle).jobs.length = 0
  rw [(WorkerPool.settle_spec _).1.jobs, hlength, WorkerPool.jobs, List.length_append]
  omega

/-- A flush that is waited for ends after the older ones. -/
theorem awaited (h : InTurn s flushes done w) (ticket : Ticket) :
    Proceeds s flushes done w (w.awaited t ticket) ∧
      ∀ j ∈ (w.awaited t ticket).pool.jobs, ticket ≠ j.ticket := by
  unfold Workshop.awaited
  split
  · rename_i hdone
    refine ⟨h.proceeds, fun j hj => ?_⟩
    obtain ⟨r, hr, hticket⟩ := List.lookup_isSome_iff.1 hdone
    rw [eq_of_beq hticket]
    exact h.waiting j hj r hr
  · obtain ⟨hproceeds, hnone⟩ := h.rest
    refine ⟨hproceeds, fun j hj => ?_⟩
    simp [hnone] at hj

/-- A flush is handed over: it is the last of all jobs.  If only one flush is kept in flight, there must be
no other. -/
theorem sendLater (h : InTurn s flushes done w) (rows : List Mutation)
    (hfree : flushes ≤ 1 → w.pool.jobs = []) :
    (w.sendLater txn rows).1 = .ok w.nextTicket ∧
      (w.sendLater txn rows).2.pool.jobs = w.pool.jobs ++ [⟨w.nextTicket, txn, rows⟩] ∧
      InTurn s flushes done (w.sendLater txn rows).2 := by
  rcases w.pool.execute_cases ⟨w.nextTicket, txn, rows⟩ with ⟨hstopped, -⟩ | ⟨-, hok, haccepted⟩
  · simp [h.stopped] at hstopped
  · have hattended := h.attended.accepted haccepted
    unfold Workshop.sendLater
    cases hexecute : w.pool.execute ⟨w.nextTicket, txn, rows⟩ with
    | mk answer p =>
        rw [hexecute] at hok haccepted hattended
        dsimp only at hok haccepted hattended
        subst hok
        obtain ⟨hjobs, hlimit, hstopped, hworkers⟩ := haccepted.jobs_eq
        refine ⟨rfl, hjobs, ?_⟩
        exact {
          attended := hattended
          stopped := hstopped.trans h.stopped
          alone := by
            rcases h.alone with ⟨hone, hle⟩ | ⟨hflushes, -⟩
            · exact .inl ⟨hlimit ▸ hone, Nat.le_trans hworkers (Nat.max_le.2 ⟨hle, hone⟩)⟩
            · refine .inr ⟨hflushes, ?_⟩
              rw [hjobs, hfree hflushes]
              exact Nat.le_refl 1
          world := h.world
          txn := fun j hj => by
            rcases List.mem_append.1 (hjobs ▸ hj) with hj | hj
            · exact h.txn j hj
            · rw [List.mem_singleton.1 hj]
          ascending := by
            show p.jobs.Pairwise _
            rw [hjobs, List.pairwise_append]
            refine ⟨h.ascending, List.pairwise_singleton _ _, fun j hj j' hj' => ?_⟩
            rw [List.mem_singleton.1 hj']
            exact h.fresh j hj
          fresh := fun j hj => by
            rcases List.mem_append.1 (hjobs ▸ hj) with hj | hj
            · exact Nat.lt_succ_of_lt (h.fresh j hj)
            · rw [List.mem_singleton.1 hj]
              exact Nat.lt_succ_self _
          older := fun r hr => Nat.lt_succ_of_lt (h.older r hr)
          waiting := fun j hj r hr => by
            rcases List.mem_append.1 (hjobs ▸ hj) with hj | hj
            · exact h.waiting j hj r hr
            · rw [List.mem_singleton.1 hj]
              exact Nat.ne_of_lt (h.older r hr) }

/-- A result is handed out. -/
theorem collect (h : InTurn s flushes done w) (ticket : Ticket) :
    InTurn s flushes done (w.collect ticket).2 where
  attended := h.attended
  stopped := h.stopped
  alone := h.alone
  world := h.world
  txn := h.txn
  ascending := h.ascending
  fresh := h.fresh
  older r hr := h.older r (List.mem_filter.1 hr).1
  waiting j hj r hr := h.waiting j hj r (List.mem_filter.1 hr).1

/-- A workshop on which nothing has happened yet. -/
theorem opening (s : t.RowByRow txn) {flushes workers : Nat} (halone : workers ≤ 1 ∨ flushes ≤ 1)
    (maxRetries : Nat) {world : τ} (hworld : world = s.after []) :
    InTurn s flushes [] { maxRetries, world, pool := .ofLimit workers } where
  attended := WorkerPool.attended_ofLimit workers
  stopped := rfl
  alone := by
    refine halone.imp (fun hworkers => ⟨?_, Nat.zero_le _⟩) fun hflushes => ⟨hflushes, Nat.zero_le _⟩
    exact Nat.max_le.2 ⟨hworkers, Nat.le_refl 1⟩
  world := hworld
  txn _ hj := absurd hj List.not_mem_nil
  ascending := .nil
  fresh _ hj := absurd hj List.not_mem_nil
  older _ hr := absurd hr List.not_mem_nil
  waiting _ hj := absurd hj List.not_mem_nil

end InTurn

end Workshop

end Multiversion
