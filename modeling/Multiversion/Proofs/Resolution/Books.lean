import Mathlib.Data.List.Induction
import Mathlib.Data.List.Perm.Basic
import Multiversion.Resolution.Resolver

/-!
# The books of a resolver

A background request reserves its pair, is sent to the worker, is carried out, counted, and gives its pair
back.  Each of these is a critical section of its own, and between them other submissions, the worker and the
shutdown take turns in any order: a pair can be asked for again while it is still to be sent, after it was
counted but before it is given back, or when the intake has ended in between.

* `Submission` — a submission that has not returned, and how far it has come;
* `Traffic` — a resolver with its submissions, its worker and its shutdown; `Traffic.turn` — one critical
  section of one of them;
* `Traffic.Booked` — what every turn keeps: each submission is counted, underway, queued or carried out, and
  each reserved pair has one owner among those that have still to give it back.

`Traffic.resolver_submit`, `resolver_runNow`, `resolver_runNext` and `exists_returned` put the operations of
the resolver together from turns.

Main statement: `Traffic.books_after` — what holds of the books after any interleaving of turns.
-/

namespace Multiversion

namespace Resolver

/-- Reserves a pair. -/
def hold (v : Resolver) (r : Request) : Resolver := { v with reserved := r :: v.reserved }

/-- Counts a request that was folded into a reserved one. -/
def countFolded (v : Resolver) : Resolver :=
  { v with stats := { v.stats with coalesced := v.stats.coalesced + 1 } }

/-- Counts the end of a request. -/
def countEnd (v : Resolver) (r : Request) (outcome : Outcome) : Resolver :=
  { v with stats := v.stats.count r.kind outcome }

/-- Sends a request to the worker. -/
def send (v : Resolver) (r : Request) : Resolver := { v with queue := v.queue ++ [r] }

theorem reserve_eq (v : Resolver) (r : Request) :
    v.reserve r = if v.reserved.contains r then (false, v.countFolded) else (true, v.hold r) := rfl

theorem enqueue_eq (v : Resolver) (r : Request) :
    v.enqueue r = if v.accepting then v.send r else (v.release r).countEnd r .skipped := rfl

end Resolver

@[simp]
theorem ResolverStats.total_count (s : ResolverStats) (kind : ResolveKind) (outcome : Outcome) :
    (s.count kind outcome).total = s.total + 1 := by
  cases outcome <;> cases kind <;> simp only [count, total] <;> omega

/-- How far a submission has come. -/
inductive Stage where
  -- To be carried out at once.
  | atOnce
  -- To reserve its pair.
  | called
  -- Its pair was reserved already, which is still to be counted.
  | folded
  -- Its pair is reserved, and it is to be sent.
  | holding
  -- The intake had ended, and its pair is to be released.
  | refused
  -- Its pair is released, and it is to be counted as skipped.
  | released
  deriving DecidableEq, Repr

/-- A submission that has not returned. -/
structure Submission where
  request : Request
  stage : Stage
  deriving DecidableEq, Repr

/-- The pair that a submission has reserved and is still to send or to release. -/
def Submission.held? (s : Submission) : Option Request :=
  match s.stage with
  | .holding | .refused => some s.request
  | _ => none

namespace Submission

variable {subs : List Submission} {n : Nat} {s : Submission}

theorem lt_length (hs : subs[n]? = some s) : n < subs.length := (List.getElem?_eq_some_iff.1 hs).1

theorem filterMap_held?_cons (s : Submission) (rest : List Submission) :
    (s :: rest).filterMap held? = s.held?.toList ++ rest.filterMap held? := by
  rw [List.filterMap_cons]
  cases s.held? <;> rfl

/-- The pairs held are that of one submission and those of the others. -/
theorem perm_held? (hs : subs[n]? = some s) :
    (subs.filterMap held?).Perm (s.held?.toList ++ (subs.eraseIdx n).filterMap held?) := by
  obtain ⟨hn, rfl⟩ := List.getElem?_eq_some_iff.1 hs
  rw [← filterMap_held?_cons]
  exact (List.getElem_cons_eraseIdx_perm hn).symm.filterMap held?

theorem perm_held?_set (hn : n < subs.length) (next : Submission) :
    ((subs.set n next).filterMap held?).Perm
      (next.held?.toList ++ (subs.eraseIdx n).filterMap held?) := by
  rw [← filterMap_held?_cons]
  exact (List.set_perm_cons_eraseIdx hn next).filterMap held?

end Submission

/-- How far the shutdown has come: the way to the worker is taken from the submissions, then it is closed, and
then the worker is waited for. -/
inductive Closing where
  | pending
  | taken
  | closed
  | returned
  deriving DecidableEq, Repr

/-- A resolver with its submissions, its worker and its shutdown. -/
structure Traffic where
  resolver : Resolver := {}
  -- The submissions that have not returned.
  underway : List Submission := []
  -- The request that the worker has counted and whose pair it has still to release.
  releasing : Option Request := none
  workerEnded : Bool := false
  closing : Closing := .pending
  -- The requests that were ever queued, and those that the worker has carried out.
  sent : List Request := []
  carriedOut : List Request := []
  deriving DecidableEq, Repr

/-- A critical section. -/
inductive Turn where
  -- A submission is made.
  | call (r : Request) (background : Bool)
  -- A submission passes its next critical section; a request that is carried out at once ends in some way.
  | advance (n : Nat) (outcome : Outcome)
  -- The worker takes a request, has carried it out, releases its pair; and ends.
  | take
  | carriedOut (outcome : Outcome)
  | release
  | exit
  -- The shutdown.
  | stop
  | close
  | join
  deriving DecidableEq, Repr

namespace Traffic

/-- The next critical section of a submission underway. -/
def advance (x : Traffic) (n : Nat) (outcome : Outcome) : Traffic :=
  match x.underway[n]? with
  | none => x
  | some ⟨r, .atOnce⟩ =>
      { x with resolver := x.resolver.countEnd r outcome, underway := x.underway.eraseIdx n }
  | some ⟨r, .called⟩ =>
      if x.resolver.reserved.contains r then { x with underway := x.underway.set n ⟨r, .folded⟩ }
      else { x with resolver := x.resolver.hold r, underway := x.underway.set n ⟨r, .holding⟩ }
  | some ⟨_, .folded⟩ =>
      { x with resolver := x.resolver.countFolded, underway := x.underway.eraseIdx n }
  | some ⟨r, .holding⟩ =>
      if x.resolver.accepting then
        { x with
          resolver := x.resolver.send r
          underway := x.underway.eraseIdx n
          sent := x.sent ++ [r] }
      else { x with underway := x.underway.set n ⟨r, .refused⟩ }
  | some ⟨r, .refused⟩ =>
      { x with resolver := x.resolver.release r, underway := x.underway.set n ⟨r, .released⟩ }
  | some ⟨r, .released⟩ =>
      { x with resolver := x.resolver.countEnd r .skipped, underway := x.underway.eraseIdx n }

/-- A turn; one whose time has not come, or is over, does nothing.  So a further call of the shutdown, which
finds the way to the worker taken, returns at once. -/
def turn (x : Traffic) : Turn → Traffic
  | .call r background =>
      { x with underway := x.underway ++ [⟨r, if background then .called else .atOnce⟩] }
  | .advance n outcome => x.advance n outcome
  | .take =>
      if x.workerEnded || x.releasing.isSome then x else { x with resolver := x.resolver.take }
  | .carriedOut outcome =>
      match x.resolver.running with
      | some r =>
          { x with
            resolver := { x.resolver.countEnd r outcome with running := none }
            releasing := some r
            carriedOut := x.carriedOut ++ [r] }
      | none => x
  | .release =>
      match x.releasing with
      | some r => { x with resolver := x.resolver.release r, releasing := none }
      | none => x
  | .exit =>
      if x.closing = .closed ∧ x.resolver.queue = [] ∧ x.resolver.running = none ∧ x.releasing = none then
        { x with workerEnded := true }
      else x
  | .stop => if x.closing = .pending then { x with resolver := x.resolver.stop, closing := .taken } else x
  | .close => if x.closing = .taken then { x with closing := .closed } else x
  | .join => if x.closing = .closed ∧ x.workerEnded = true then { x with closing := .returned } else x

/-- The traffic after some turns. -/
def run (x : Traffic) (turns : List Turn) : Traffic := turns.foldl turn x

/-- The traffic after some turns, from the start of the resolver. -/
def after (turns : List Turn) : Traffic := run {} turns

/-- The pairs that submissions have reserved and are still to send or to release. -/
def held (x : Traffic) : List Request := x.underway.filterMap Submission.held?

/-- The pairs that the worker is still to release: those of requests that are queued, being carried out, or
counted a moment ago. -/
def inFlight (x : Traffic) : List Request :=
  x.resolver.queue ++ (x.resolver.running.toList ++ x.releasing.toList)

/-- The number of submissions that are made in some turns. -/
def calls (turns : List Turn) : Nat :=
  turns.countP fun
    | .call _ _ => true
    | _ => false

/-- What every turn keeps, after a number of submissions. -/
structure Booked (made : Nat) (x : Traffic) : Prop where
  balance : x.resolver.stats.total + x.underway.length + x.resolver.queue.length +
    x.resolver.running.toList.length = made
  -- Each reserved pair has one owner that will release it.
  reserved : x.resolver.reserved.Perm (x.held ++ x.inFlight)
  nodup : x.resolver.reserved.Nodup
  -- The worker takes requests in the order in which they were sent.
  order : x.sent = x.carriedOut ++ (x.resolver.running.toList ++ x.resolver.queue)
  single : x.resolver.running = none ∨ x.releasing = none
  -- Once the intake has ended nothing is sent, and the worker ends with nothing left to do.
  accepting : x.resolver.accepting = true → x.closing = .pending
  ended : x.workerEnded = true → x.closing ≠ .pending ∧ x.inFlight = []
  returned : x.closing = .returned → x.workerEnded = true

namespace Booked

variable {made n : Nat} {x : Traffic} {s : Submission} {r : Request}

theorem start : Booked 0 {} where
  balance := rfl
  reserved := .refl _
  nodup := .nil
  order := rfl
  single := .inl rfl
  accepting _ := rfl
  ended := nofun
  returned := nofun

theorem call (h : Booked made x) (r : Request) (background : Bool) :
    Booked (made + 1) (x.turn (.call r background)) where
  balance := by
    have hbalance := h.balance
    simp only [turn, List.length_append, List.length_singleton]
    omega
  reserved := by
    have hheld : (x.turn (.call r background)).held = x.held := by
      simp only [held, turn, List.filterMap_append]
      cases background <;> simp [Submission.held?]
    rw [hheld]
    exact h.reserved
  nodup := h.nodup
  order := h.order
  single := h.single
  accepting := h.accepting
  ended := h.ended
  returned := h.returned

/-- A submission moves on, and nothing else does. -/
theorem moved (h : Booked made x) (hs : x.underway[n]? = some s) {next : Submission}
    (hheld : next.held? = s.held?) : Booked made { x with underway := x.underway.set n next } where
  balance := by
    rw [List.length_set]
    exact h.balance
  reserved := by
    have hperm := (Submission.perm_held? hs).trans
      (hheld ▸ (Submission.perm_held?_set (Submission.lt_length hs) next).symm)
    exact h.reserved.trans (hperm.append_right _)
  nodup := h.nodup
  order := h.order
  single := h.single
  accepting := h.accepting
  ended := h.ended
  returned := h.returned

/-- A submission that holds no pair is counted, and returns. -/
theorem counted (h : Booked made x) (hs : x.underway[n]? = some s) (hheld : s.held? = none)
    {stats : ResolverStats} (htotal : stats.total = x.resolver.stats.total + 1) :
    Booked made
      { x with resolver := { x.resolver with stats := stats }, underway := x.underway.eraseIdx n } where
  balance := by
    have hbalance := h.balance
    have hlength := List.length_eraseIdx_add_one (Submission.lt_length hs)
    simp only [htotal]
    omega
  reserved := by
    have hperm := Submission.perm_held? hs
    rw [hheld] at hperm
    exact h.reserved.trans (hperm.append_right _)
  nodup := h.nodup
  order := h.order
  single := h.single
  accepting := h.accepting
  ended := h.ended
  returned := h.returned

/-- A submission reserves a free pair. -/
theorem hold (h : Booked made x) (hs : x.underway[n]? = some ⟨r, .called⟩) (hfree : r ∉ x.resolver.reserved) :
    Booked made
      { x with resolver := x.resolver.hold r, underway := x.underway.set n ⟨r, .holding⟩ } where
  balance := by
    rw [List.length_set]
    exact h.balance
  reserved := by
    have hothers := Submission.perm_held? hs
    have hnext := Submission.perm_held?_set (Submission.lt_length hs) ⟨r, .holding⟩
    exact ((h.reserved.trans (hothers.append_right _)).cons r).trans (hnext.symm.append_right _)
  nodup := List.nodup_cons.2 ⟨hfree, h.nodup⟩
  order := h.order
  single := h.single
  accepting := h.accepting
  ended := h.ended
  returned := h.returned

/-- A submission sends its request, as long as the intake has not ended. -/
theorem send (h : Booked made x) (hs : x.underway[n]? = some ⟨r, .holding⟩)
    (haccepting : x.resolver.accepting = true) :
    Booked made
      { x with
        resolver := x.resolver.send r
        underway := x.underway.eraseIdx n
        sent := x.sent ++ [r] } where
  balance := by
    have hbalance := h.balance
    have hlength := List.length_eraseIdx_add_one (Submission.lt_length hs)
    simp only [Resolver.send, List.length_append, List.length_singleton]
    omega
  reserved := by
    have hothers := (Submission.perm_held? hs).append_right x.inFlight
    refine (h.reserved.trans hothers).trans ?_
    simp only [held, inFlight, Resolver.send, Submission.held?, Option.toList_some, List.append_assoc,
      List.singleton_append]
    exact List.perm_middle.symm.trans (List.perm_middle.symm.append_left _)
  nodup := h.nodup
  order := by
    simp only [h.order, Resolver.send, List.append_assoc]
  single := h.single
  accepting := h.accepting
  ended hended := absurd (h.accepting haccepting) (h.ended hended).1
  returned := h.returned

/-- A submission that was refused releases its pair. -/
theorem giveUp (h : Booked made x) (hs : x.underway[n]? = some ⟨r, .refused⟩) :
    Booked made
      { x with resolver := x.resolver.release r, underway := x.underway.set n ⟨r, .released⟩ } where
  balance := by
    rw [List.length_set]
    exact h.balance
  reserved := by
    have hothers := Submission.perm_held? hs
    have hnext := Submission.perm_held?_set (Submission.lt_length hs) ⟨r, .released⟩
    have herase := (h.reserved.trans (hothers.append_right _)).erase r
    refine herase.trans ?_
    simp only [Submission.held?, Option.toList_some, List.cons_append, List.nil_append, List.erase_cons_head]
    exact hnext.symm.append_right _
  nodup := h.nodup.erase r
  order := h.order
  single := h.single
  accepting := h.accepting
  ended := h.ended
  returned := h.returned

/-- **A turn of a submission** keeps the books. -/
theorem advance (h : Booked made x) (n : Nat) (outcome : Outcome) : Booked made (x.advance n outcome) := by
  unfold Traffic.advance
  split
  · exact h
  · rename_i hs
    exact h.counted hs rfl (ResolverStats.total_count ..)
  · rename_i r hs
    split
    · exact h.moved hs rfl
    · rename_i hfree
      exact h.hold hs (by simpa using hfree)
  · rename_i hs
    exact h.counted hs rfl (by simp only [ResolverStats.total]; omega)
  · rename_i r hs
    split
    · rename_i haccepting
      exact h.send hs haccepting
    · exact h.moved hs rfl
  · rename_i hs
    exact h.giveUp hs
  · rename_i hs
    exact h.counted hs rfl (ResolverStats.total_count ..)

/-- The worker takes the oldest request. -/
theorem take (h : Booked made x) (hawake : x.workerEnded = false) (hreleased : x.releasing = none) :
    Booked made { x with resolver := x.resolver.take } := by
  unfold Resolver.take
  split
  · rename_i r rest hrunning hqueue
    have hbalance := h.balance
    have hreserved := h.reserved
    have horder := h.order
    simp only [hrunning, hqueue, Option.toList_none, List.length_nil, List.length_cons, List.nil_append,
      inFlight, hreleased, List.append_nil] at hbalance hreserved horder
    refine ⟨?_, ?_, h.nodup, ?_, .inr hreleased, h.accepting, fun hended => ?_, h.returned⟩
    · simp only [Option.toList_some, List.length_singleton]
      omega
    · simp only [inFlight, hreleased, Option.toList_some, Option.toList_none, List.append_nil]
      exact hreserved.trans ((List.perm_append_singleton r rest).symm.append_left _)
    · simpa using horder
    · exact absurd hended (hawake ▸ nofun)
  · exact h

/-- The worker has carried out a request, and counts it. -/
theorem carriedOut (h : Booked made x) (hrunning : x.resolver.running = some r) (outcome : Outcome) :
    Booked made
      { x with
        resolver := { x.resolver.countEnd r outcome with running := none }
        releasing := some r
        carriedOut := x.carriedOut ++ [r] } where
  balance := by
    have hbalance := h.balance
    simp only [hrunning, Option.toList_some, List.length_singleton] at hbalance
    simp only [Resolver.countEnd, ResolverStats.total_count, Option.toList_none, List.length_nil]
    omega
  reserved := by
    have hreleased : x.releasing = none := h.single.resolve_left (by simp [hrunning])
    have hreserved := h.reserved
    simp only [inFlight, hrunning, hreleased, Option.toList_none, List.append_nil] at hreserved
    exact hreserved
  nodup := h.nodup
  order := by simp [h.order, hrunning, Resolver.countEnd]
  single := .inl rfl
  accepting := h.accepting
  ended hended := by simpa [inFlight, hrunning] using (h.ended hended).2
  returned := h.returned

/-- The worker releases the pair of the request that it has counted. -/
theorem release (h : Booked made x) (hreleasing : x.releasing = some r) :
    Booked made { x with resolver := x.resolver.release r, releasing := none } where
  balance := h.balance
  reserved := by
    have hrunning : x.resolver.running = none := h.single.resolve_right (by simp [hreleasing])
    have hreserved := h.reserved
    simp only [inFlight, hrunning, hreleasing, Option.toList_none, Option.toList_some,
      List.nil_append] at hreserved
    simp only [inFlight, Resolver.release, hrunning, Option.toList_none, List.append_nil]
    have hlast : (x.held ++ (x.resolver.queue ++ [r])).Perm (r :: (x.held ++ x.resolver.queue)) := by
      rw [← List.append_assoc]
      exact List.perm_append_singleton r _
    have herase := (hreserved.trans hlast).erase r
    rwa [List.erase_cons_head] at herase
  nodup := h.nodup.erase r
  order := h.order
  single := .inr rfl
  accepting := h.accepting
  ended hended := by simpa [inFlight, hreleasing] using (h.ended hended).2
  returned := h.returned

/-- **A turn** keeps the books. -/
theorem turn (h : Booked made x) (t : Turn) : Booked (made + calls [t]) (x.turn t) := by
  cases t with
  | call r background => exact h.call r background
  | advance n outcome => exact h.advance n outcome
  | take =>
      simp only [Traffic.turn]
      split
      · exact h
      · rename_i hready
        have hready' : x.workerEnded = false ∧ x.releasing = none := by simpa using hready
        exact h.take hready'.1 hready'.2
  | carriedOut outcome =>
      simp only [Traffic.turn]
      split
      · rename_i r hrunning
        exact h.carriedOut hrunning outcome
      · exact h
  | release =>
      simp only [Traffic.turn]
      split
      · rename_i r hreleasing
        exact h.release hreleasing
      · exact h
  | exit =>
      simp only [Traffic.turn]
      split
      · rename_i hidle
        obtain ⟨hclosed, hqueue, hrunning, hreleasing⟩ := hidle
        refine { h with ended := fun _ => ⟨?_, ?_⟩, returned := fun _ => rfl }
        · simp [hclosed]
        · simp [inFlight, hqueue, hrunning, hreleasing]
      · exact h
  | stop =>
      simp only [Traffic.turn]
      split
      · rename_i hpending
        refine { h with accepting := nofun, ended := fun hended => ?_, returned := nofun }
        exact absurd hpending (h.ended hended).1
      · exact h
  | close =>
      simp only [Traffic.turn]
      split
      · rename_i htaken
        refine { h with accepting := fun haccepting => ?_, ended := fun hended => ⟨nofun, (h.ended hended).2⟩
                        returned := nofun }
        exact absurd (h.accepting haccepting) (by simp [htaken])
      · exact h
  | join =>
      simp only [Traffic.turn]
      split
      · rename_i hended
        refine { h with accepting := fun haccepting => ?_, ended := fun _ => ⟨nofun, (h.ended hended.2).2⟩
                        returned := fun _ => hended.2 }
        exact absurd (h.accepting haccepting) (by simp [hended.1])
      · exact h

end Booked

/-- **Any interleaving of turns** keeps the books. -/
theorem booked_after (turns : List Turn) : Booked (calls turns) (after turns) := by
  induction turns using List.reverseRecOn with
  | nil => exact .start
  | append_singleton turns t ih =>
      have hcalls : calls (turns ++ [t]) = calls turns + calls [t] := List.countP_append
      rw [hcalls, after, run, List.foldl_append]
      exact ih.turn t

section Operations

variable {x : Traffic}

theorem run_append (x : Traffic) (turns more : List Turn) : x.run (turns ++ more) = (x.run turns).run more :=
  List.foldl_append

/-- A background submission that nobody interrupts. -/
theorem resolver_submit (h : x.underway = []) (r : Request) (outcome : Outcome) :
    (x.run (.call r true :: List.replicate 4 (.advance 0 outcome))).resolver = x.resolver.submit r := by
  simp only [run, List.replicate, List.foldl_cons, List.foldl_nil, turn, h, List.nil_append]
  by_cases hreserved : r ∈ x.resolver.reserved <;> cases haccepting : x.resolver.accepting <;>
    simp [advance, Resolver.submit, Resolver.reserve_eq, Resolver.enqueue_eq, hreserved, haccepting,
      Resolver.hold]

/-- A request carried out at once. -/
theorem resolver_runNow (h : x.underway = []) (r : Request) (t : TxnStore) (now : Millis) :
    (x.run [.call r false, .advance 0 (r.execute t now).1]).resolver =
      (x.resolver.runNow r t now).1 := by
  simp [run, turn, advance, h, Resolver.runNow, Resolver.countEnd]

/-- A worker between two requests. -/
structure Resting (x : Traffic) : Prop where
  awake : x.workerEnded = false
  running : x.resolver.running = none
  releasing : x.releasing = none

/-- A request that the worker takes, carries out and gives back without a break. -/
theorem Resting.run_next (h : x.Resting) {r : Request} {rest : List Request}
    (hqueue : x.resolver.queue = r :: rest) (t : TxnStore) (now : Millis) :
    ∃ y, x.run [.take, .carriedOut (r.execute t now).1, .release] = y ∧ y.Resting ∧
      y.resolver = (x.resolver.runNext t now).1 ∧ y.resolver.queue = rest ∧ y.closing = x.closing := by
  obtain ⟨hawake, hrunning, hreleasing⟩ := h
  have htake : x.resolver.take = { x.resolver with queue := rest, running := some r } := by
    simp [Resolver.take, hrunning, hqueue]
  refine ⟨_, rfl, ⟨?_, ?_, ?_⟩, ?_, ?_, ?_⟩ <;>
    simp [run, turn, hawake, hreleasing, htake, Resolver.runNext, Resolver.finish, Resolver.release,
      Resolver.countEnd]

theorem Resting.run_many (h : x.Resting) {n : Nat} (hn : x.resolver.queue.length = n) (t : TxnStore)
    (now : Millis) :
    ∃ turns y, x.run turns = y ∧ y.Resting ∧ y.resolver = (x.resolver.runMany t now n).1 ∧
      y.resolver.queue = [] ∧ y.closing = x.closing := by
  induction n generalizing x t with
  | zero => exact ⟨[], x, rfl, h, rfl, List.eq_nil_of_length_eq_zero hn, rfl⟩
  | succ n ih =>
      cases hqueue : x.resolver.queue with
      | nil => simp [hqueue] at hn
      | cons r rest =>
          obtain ⟨y, hy, hresting, hresolver, hrest, hclosing⟩ := h.run_next hqueue t now
          have hlength : y.resolver.queue.length = n := by
            rw [hrest]
            simpa [hqueue] using hn
          obtain ⟨turns, z, hz, hz'⟩ := ih hresting hlength (x.resolver.runNext t now).2
          rw [hresolver, hclosing] at hz'
          refine ⟨[.take, .carriedOut (r.execute t now).1, .release] ++ turns, z, ?_, hz'⟩
          rw [run_append, hy, hz]

/-- A shutdown returns, once the worker has carried out what was queued. -/
theorem Resting.exists_returned (h : x.Resting) (hpending : x.closing = .pending) (t : TxnStore)
    (now : Millis) :
    ∃ turns, (x.run turns).closing = .returned ∧
      (x.run turns).resolver = (x.resolver.shutdown t now).1 := by
  have hstop : x.run [.stop, .close] =
      { x with resolver := x.resolver.stop, closing := .closed } := by
    simp [run, turn, hpending]
  have hresting : (x.run [.stop, .close]).Resting := by
    rw [hstop]
    exact ⟨h.awake, h.running, h.releasing⟩
  obtain ⟨turns, y, hy, hyresting, hresolver, hqueue, hclosing⟩ := hresting.run_many rfl t now
  rw [hstop] at hresolver hclosing
  have hend : y.run [.exit, .join] = { y with workerEnded := true, closing := .returned } := by
    simp [run, turn, hclosing, hqueue, hyresting.running, hyresting.releasing]
  refine ⟨[.stop, .close] ++ (turns ++ [.exit, .join]), ?_⟩
  rw [run_append, run_append, hy, hend]
  exact ⟨rfl, hresolver⟩

end Operations

/-- **No request disappears from the books.**  Submissions of any requests, carried out at once or in the
background, the worker and the shutdown take turns in any order.  At any time

* the requests counted as resolved, skipped, folded into others or failed, with the submissions that have not
  returned, those that are queued and the one that is being carried out, are as many as were submitted;
* no pair is queued or being carried out twice in the background, and each reserved pair has one owner that
  will release it;
* once the shutdown has returned, the worker has carried out every request that was queued, once and in the
  order of the queue, and only submissions that have not returned have pairs reserved. -/
theorem books_after (turns : List Turn) :
    let x := after turns
    x.resolver.stats.total + x.underway.length + x.resolver.queue.length +
        x.resolver.running.toList.length = calls turns ∧
      (x.resolver.queue ++ x.resolver.running.toList).Nodup ∧
      (x.resolver.reserved.Perm (x.held ++ x.inFlight) ∧ x.resolver.reserved.Nodup) ∧
      (x.closing = .returned →
        x.carriedOut = x.sent ∧ x.resolver.queue = [] ∧ x.resolver.running = none ∧
        x.resolver.reserved.Perm x.held) := by
  intro x
  have h : Booked (calls turns) x := booked_after turns
  refine ⟨h.balance, ?_, ⟨h.reserved, h.nodup⟩, fun hreturned => ?_⟩
  · have hinFlight : x.inFlight.Nodup := (List.nodup_append.1 (h.reserved.nodup h.nodup)).2.1
    rw [inFlight, ← List.append_assoc] at hinFlight
    exact (List.nodup_append.1 hinFlight).1
  · have hnothing := (h.ended (h.returned hreturned)).2
    obtain ⟨hqueue, hworker⟩ := List.append_eq_nil_iff.1 hnothing
    have hrunning := (List.append_eq_nil_iff.1 hworker).1
    refine ⟨?_, hqueue, Option.toList_eq_nil_iff.1 hrunning, ?_⟩
    · rw [h.order, hqueue, hrunning, List.append_nil, List.append_nil]
    · rw [← List.append_nil x.held, ← hnothing]
      exact h.reserved

end Traffic

namespace LateDuplicate

def first : Request := ⟨.timedOut, ⟨1⟩⟩

def second : Request := ⟨.globalCommit, ⟨2⟩⟩

/-- A request is asked for again while it is to be sent, and once more when it was counted and not yet given
back; another one finds the intake ended, and has not given its pair back when the shutdown returns. -/
def turns : List Turn :=
  [.call first true, .advance 0 .resolved, .call first true, .advance 1 .resolved, .advance 0 .resolved,
    .advance 0 .resolved, .call second true, .advance 0 .resolved, .take, .stop, .advance 0 .resolved,
    .carriedOut .resolved, .call first true, .advance 1 .resolved, .release, .close, .exit, .join]

end LateDuplicate

open LateDuplicate in
/-- Two submissions are counted and two have not returned, one of which still has its pair reserved. -/
theorem books_after_lateDuplicate :
    let x := Traffic.after turns
    x.closing = .returned ∧ x.resolver.stats.total = 2 ∧ x.underway.length = 2 ∧ Traffic.calls turns = 4 ∧
      x.carriedOut = x.sent ∧ x.sent = [first] ∧ x.resolver.reserved.Perm x.held ∧ x.held = [second] := by
  intro x
  have hreturned : x.closing = .returned := by decide
  obtain ⟨-, -, -, hend⟩ := Traffic.books_after turns
  obtain ⟨hdone, -, -, hreserved⟩ := hend hreturned
  exact ⟨hreturned, by decide, by decide, by decide, hdone, by decide, hreserved, by decide⟩

end Multiversion
