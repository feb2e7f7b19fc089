import Multiversion.Proofs.Resolution.Settlement
import Multiversion.Resolution.Resolver

/-!
# Schedules of background work

Requests reach the resolver in any order and number, some carried out at once, some in the background, and
its worker takes queued ones at any time; a background request that is already queued is folded into the
queued one.  In the end every request that was made has been carried out at least once, which is all that
the records depend on.

* `Resolver.Event` — a request, or the worker at work;
* `Resolver.carryOut` — a schedule of events, and then whatever is still queued;
* `Resolver.Ready` — a resolver between two requests;
* `Resolver.Underway` — what holds in between: the requests made so far are carried out or queued.

Main statement: `Resolver.carryOut_orderFree` — the records in the end depend only on which requests were
made, and which records differ from before, and how.
-/

namespace Multiversion

namespace Resolver

/-- A request for background work, carried out at once or in the background, or the worker taking the next
request from the queue. -/
inductive Event where
  | now (r : Request)
  | background (r : Request)
  | work
  deriving DecidableEq, Repr

/-- The request that is made. -/
def Event.request? : Event → Option Request
  | now r => some r
  | background r => some r
  | work => none

/-- What an event does to the resolver and to the store. -/
def handle (now : Millis) : Resolver × TxnStore → Event → Resolver × TxnStore
  | (v, t), .now r => v.runNow r t now
  | (v, t), .background r => (v.submit r, t)
  | (v, t), .work => v.runNext t now

/-- The requests that are made in a schedule. -/
def asked (events : List Event) : List Request := events.filterMap Event.request?

/-- The store after a schedule of events and everything that is still queued then. -/
def carryOut (v : Resolver) (t : TxnStore) (now : Millis) (events : List Event) : TxnStore :=
  let (v, t) := events.foldl (handle now) (v, t)
  (v.drain t now).2

/-- A resolver that takes requests and has nothing to do. -/
structure Idle (v : Resolver) : Prop where
  accepting : v.accepting = true
  resting : v.running = none
  queue : v.queue = []
  reserved : v.reserved = []

/-- A resolver that takes requests, between two of them: exactly the queued ones are reserved. -/
structure Ready (v : Resolver) : Prop where
  accepting : v.accepting = true
  resting : v.running = none
  reserved : v.reserved.Perm v.queue
  nodup : v.queue.Nodup

/-- In a schedule: the requests in `made` have been made, those in `done` carried out. -/
structure Underway (now : Millis) (t₀ : TxnStore) (made done : List Request) (v : Resolver)
    (t : TxnStore) : Prop where
  settled : t₀.Settled now t done
  pending : ∀ r, r ∈ made ↔ r ∈ done ∨ r ∈ v.queue
  accepting : v.accepting = true
  resting : v.running = none
  -- Exactly the queued requests are reserved, each once.
  reserved : v.reserved.Perm v.queue
  nodup : v.queue.Nodup

namespace Underway

variable {now : Millis} {t₀ t : TxnStore} {made done : List Request} {v : Resolver}

theorem runNow (h : Underway now t₀ made done v t) (r : Request) :
    Underway now t₀ (made ++ [r]) (done ++ [r]) (v.runNow r t now).1 (v.runNow r t now).2 where
  settled := h.settled.execute r
  pending q := by
    have hq := h.pending q
    simp only [Resolver.runNow, List.mem_append, hq]
    exact or_right_comm
  accepting := h.accepting
  resting := h.resting
  reserved := h.reserved
  nodup := h.nodup

theorem submit (h : Underway now t₀ made done v t) (r : Request) :
    Underway now t₀ (made ++ [r]) done (v.submit r) t := by
  unfold Resolver.submit reserve
  by_cases hreserved : r ∈ v.reserved
  · -- The request is folded into the queued one.
    have hqueued : r ∈ v.queue := h.reserved.mem_iff.1 hreserved
    rw [if_pos (by simpa using hreserved)]
    refine ⟨h.settled, fun q => ?_, h.accepting, h.resting, h.reserved, h.nodup⟩
    rw [List.mem_append, h.pending q, List.mem_singleton]
    refine ⟨?_, .inl⟩
    rintro (hq | rfl)
    · exact hq
    · exact .inr hqueued
  · have hfresh : r ∉ v.queue := fun hqueued => hreserved (h.reserved.mem_iff.2 hqueued)
    rw [if_neg (by simpa using hreserved)]
    simp only [enqueue, h.accepting, if_true]
    refine ⟨h.settled, fun q => ?_, rfl, h.resting, ?_, ?_⟩
    · rw [List.mem_append, h.pending q, List.mem_append, or_assoc]
    · exact (h.reserved.cons r).trans (List.perm_append_singleton r v.queue).symm
    · exact List.nodup_append.2 ⟨h.nodup, List.nodup_singleton r, fun a ha b hb => by
        rintro rfl
        exact hfresh (List.mem_singleton.1 hb ▸ ha)⟩

theorem submitAll (h : Underway now t₀ made done v t) (rs : List Request) :
    Underway now t₀ (made ++ rs) done (v.submitAll rs) t := by
  induction rs generalizing made v with
  | nil => rwa [List.append_nil]
  | cons r rest ih =>
      have hrest := ih (h.submit r)
      rwa [List.append_assoc] at hrest

theorem runNext_of_nil (h : Underway now t₀ made done v t) (hqueue : v.queue = []) :
    v.runNext t now = (v, t) := by
  have htake : v.take = v := by
    simp [take, h.resting, hqueue]
  simp [Resolver.runNext, htake, h.resting]

theorem runNext_of_cons (h : Underway now t₀ made done v t) {r : Request} {rest : List Request}
    (hqueue : v.queue = r :: rest) :
    (v.runNext t now).1.queue = rest ∧
      Underway now t₀ made (done ++ [r]) (v.runNext t now).1 (v.runNext t now).2 := by
  have hnodup := h.nodup
  have hreserved := h.reserved
  rw [hqueue] at hnodup hreserved
  have htake : v.take = { v with queue := rest, running := some r } := by
    simp [take, h.resting, hqueue]
  simp only [Resolver.runNext, htake, finish, release]
  refine ⟨trivial, h.settled.execute r, fun q => ?_, h.accepting, rfl, ?_, (List.nodup_cons.1 hnodup).2⟩
  · rw [h.pending q, hqueue, List.mem_cons, List.mem_append, List.mem_singleton, or_assoc]
  · have herase := hreserved.erase r
    rwa [List.erase_cons_head] at herase

/-- **An event keeps a schedule underway.** -/
theorem handle (h : Underway now t₀ made done v t) (event : Event) :
    ∃ done', Underway now t₀ (made ++ asked [event]) done' (Resolver.handle now (v, t) event).1
      (Resolver.handle now (v, t) event).2 := by
  cases event with
  | now r => exact ⟨_, h.runNow r⟩
  | background r => exact ⟨_, h.submit r⟩
  | work =>
      rw [show asked [Event.work] = [] from rfl, List.append_nil]
      show ∃ done', Underway now t₀ made done' (v.runNext t now).1 (v.runNext t now).2
      cases hqueue : v.queue with
      | nil =>
          rw [h.runNext_of_nil hqueue]
          exact ⟨done, h⟩
      | cons r rest => exact ⟨_, (h.runNext_of_cons hqueue).2⟩

theorem handleAll (h : Underway now t₀ made done v t) (events : List Event) :
    ∃ done', Underway now t₀ (made ++ asked events) done' (events.foldl (Resolver.handle now) (v, t)).1
      (events.foldl (Resolver.handle now) (v, t)).2 := by
  induction events generalizing made done v t with
  | nil => exact ⟨done, by rwa [show asked [] = [] from rfl, List.append_nil]⟩
  | cons event rest ih =>
      obtain ⟨done', hevent⟩ := h.handle event
      obtain ⟨done'', hrest⟩ := ih hevent
      refine ⟨done'', ?_⟩
      rw [List.append_assoc] at hrest
      have hasked : asked (event :: rest) = asked [event] ++ asked rest := by
        rw [asked, asked, asked, ← List.filterMap_append]
        rfl
      rwa [hasked]

theorem runMany (h : Underway now t₀ made done v t) {n : Nat} (hn : v.queue.length = n) :
    ∃ done', t₀.Settled now (v.runMany t now n).2 done' ∧ ∀ r, r ∈ made ↔ r ∈ done' := by
  induction n generalizing done v t with
  | zero =>
      refine ⟨done, h.settled, fun r => ?_⟩
      rw [h.pending r, List.eq_nil_of_length_eq_zero hn]
      simp
  | succ n ih =>
      cases hqueue : v.queue with
      | nil => simp [hqueue] at hn
      | cons r rest =>
          obtain ⟨hrest, hnext⟩ := h.runNext_of_cons hqueue
          have hlength : (v.runNext t now).1.queue.length = n := by
            rw [hrest]
            simpa [hqueue] using hn
          exact ih hnext hlength

end Underway

theorem Idle.ready {v : Resolver} (hv : v.Idle) : v.Ready where
  accepting := hv.accepting
  resting := hv.resting
  reserved := by rw [hv.reserved, hv.queue]
  nodup := by simp [hv.queue]

/-- What is queued is still to be carried out. -/
theorem Ready.underway {v : Resolver} (hv : v.Ready) {t : TxnStore} (ht : t.Healthy) {now : Millis} :
    Underway now t v.queue [] v t where
  settled := .refl ht
  pending r := by simp
  accepting := hv.accepting
  resting := hv.resting
  reserved := hv.reserved
  nodup := hv.nodup

/-- **A schedule of requests settles the records**, as if each request had been carried out at first. -/
theorem settled_carryOut {t : TxnStore} (h : t.Healthy) (now : Millis) {v : Resolver} (hv : v.Idle)
    (events : List Event) : t.Settled now (v.carryOut t now events) (asked events) := by
  obtain ⟨done, hunderway⟩ := (hv.ready.underway h).handleAll events
  rw [hv.queue, List.nil_append] at hunderway
  obtain ⟨done', hsettled, hmembers⟩ := hunderway.runMany rfl
  exact hsettled.congr fun r => (hmembers r).symm

/-- **Background work is harmless, and its order does not matter.**  No log device fails, and the clock
stands still.  However requests for background work are scheduled, on whatever idle resolver:

* the records in the end depend only on which requests were made, not on their order or number;
* no record is lost or made, and one that differs from before is that of a transaction that was active and
  past its deadline, was asked about as such, and has been rolled back; or of a nested transaction that had
  committed with all its ancestors and without a cached timestamp, was asked for its root's, and has the
  commit timestamp of its root cached. -/
theorem carryOut_orderFree {t : TxnStore} (h : t.Healthy) (now : Millis) {v : Resolver} (hv : v.Idle)
    (events : List Event) :
    (∀ (v' : Resolver) (events' : List Event), v'.Idle →
      (∀ r, r ∈ asked events ↔ r ∈ asked events') →
      ∀ id, (v'.carryOut t now events').find? id = (v.carryOut t now events).find? id) ∧
    ∀ id,
      (t.find? id = none → (v.carryOut t now events).find? id = none) ∧
      ∀ e, t.find? id = some e → ∃ e', (v.carryOut t now events).find? id = some e' ∧
        (e' = e ∨
          (⟨.timedOut, id⟩ ∈ asked events ∧ e.view.phase = .active ∧
            (t.directory now).isExpired id = true ∧
            e' = { e with view := { e.view with phase := .rolledBack } }) ∨
          (⟨.globalCommit, id⟩ ∈ asked events ∧ e.view.phase = .committed ∧ e.view.parent.isSome ∧
            e.view.globalCommit = none ∧
            ∃ us ts, Path (t.directory now) e.view us ∧ rootCommit e.view us = some ts ∧
              e' = { e with view := { e.view with globalCommit := some ts } })) := by
  have hsettled := settled_carryOut h now hv events
  refine ⟨fun v' events' hv' hmembers id => ?_, fun id => ⟨fun hnone => ?_, fun e he => ?_⟩⟩
  · have hsettled' := (settled_carryOut h now hv' events').congr fun r => (hmembers r).symm
    rw [hsettled.records, hsettled'.records]
  · rw [hsettled.records, hnone, Option.map_none]
  · exact ⟨_, hsettled.find? he, Entry.settle_cases _ _ id e⟩

end Resolver

namespace LateWork

/-- A nested transaction commits, then its parent does; another one begins and is left alone. -/
def store : TxnStore :=
  [Change.begin { id := ⟨1⟩, begin := ⟨1⟩ }, .begin { id := ⟨2⟩, begin := ⟨2⟩, parent := some ⟨1⟩ },
    .commit ⟨2⟩ ⟨3⟩, .commit ⟨1⟩ ⟨4⟩, .begin { id := ⟨5⟩, begin := ⟨5⟩ }].foldl
    (fun t change => (t.submit 0 change).2) (.single (.empty {}))

theorem healthy : store.Healthy := by
  have hempty : (TxnStore.single (.empty {})).Healthy := fun _ => ⟨rfl, rfl⟩
  exact ((((hempty.submit 0 _).submit 0 _).submit 0 _).submit 0 _).submit 0 _

theorem idle : Resolver.Idle {} := ⟨rfl, rfl, rfl, rfl⟩

/-- Both kinds of work, the first in the background. -/
def events : List Resolver.Event :=
  [.background ⟨.timedOut, ⟨5⟩⟩, .now ⟨.globalCommit, ⟨2⟩⟩, .work]

/-- The same work in another order, part of it repeated. -/
def repeated : List Resolver.Event :=
  [.now ⟨.globalCommit, ⟨2⟩⟩, .background ⟨.globalCommit, ⟨2⟩⟩, .now ⟨.timedOut, ⟨5⟩⟩]

end LateWork

/-- A time-out and a timestamp to be cached, asked for in either order and repeatedly. -/
theorem carryOut_orderFree_lateWork :
    LateWork.store.Healthy ∧ Resolver.Idle {} ∧
      ∀ id, (Resolver.carryOut {} LateWork.store 100000 LateWork.repeated).find? id =
        (Resolver.carryOut {} LateWork.store 100000 LateWork.events).find? id := by
  have hfree := Resolver.carryOut_orderFree LateWork.healthy 100000 LateWork.idle LateWork.events
  refine ⟨LateWork.healthy, LateWork.idle, hfree.1 {} LateWork.repeated LateWork.idle fun r => ?_⟩
  simp [Resolver.asked, LateWork.events, LateWork.repeated, Resolver.Event.request?, or_comm]

end Multiversion
