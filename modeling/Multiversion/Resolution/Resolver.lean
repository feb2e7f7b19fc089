import Multiversion.Resolution.Request

/-!
# The resolver

Runs resolution requests, at once or in the background.  A background request passes through separate
steps — `reserve` its pair of kind and id, `enqueue` it, `take` it from the queue, `finish` it — which
may interleave with those of other requests and with `stop`.  A request whose pair is already reserved
is folded into the reserved one.

* `Resolver.submit` — reserve and enqueue in one go;
* `Resolver.drain` — runs everything that is queued;
* `Resolver.shutdown` — no more intake, and a drained queue.
-/

namespace Multiversion

/-- Counters of a resolver. -/
structure ResolverStats where
  resolvedGlobalCommits : Nat := 0
  resolvedTimeouts : Nat := 0
  -- Requests that found nothing to do, or came too late.
  skipped : Nat := 0
  -- Background requests folded into a reserved one.
  coalesced : Nat := 0
  failed : Nat := 0
  deriving DecidableEq, Repr

namespace ResolverStats

/-- Counts the end of a request. -/
def count (s : ResolverStats) (kind : ResolveKind) (outcome : Outcome) : ResolverStats :=
  match outcome, kind with
  | .resolved, .globalCommit => { s with resolvedGlobalCommits := s.resolvedGlobalCommits + 1 }
  | .resolved, .timedOut => { s with resolvedTimeouts := s.resolvedTimeouts + 1 }
  | .skipped, _ => { s with skipped := s.skipped + 1 }
  | .failed, _ => { s with failed := s.failed + 1 }

/-- The number of requests that have ended. -/
def total (s : ResolverStats) : Nat :=
  s.resolvedGlobalCommits + s.resolvedTimeouts + s.skipped + s.coalesced + s.failed

end ResolverStats

/-- A resolver with its queue. -/
structure Resolver where
  -- Pairs of kind and id that are reserved for a background request.
  reserved : List Request := []
  queue : List Request := []
  running : Option Request := none
  accepting : Bool := true
  stats : ResolverStats := {}
  deriving DecidableEq, Repr

namespace Resolver

/-- Reserves the pair of a background request; false if it is reserved already. -/
def reserve (v : Resolver) (r : Request) : Bool × Resolver :=
  if v.reserved.contains r then
    (false, { v with stats := { v.stats with coalesced := v.stats.coalesced + 1 } })
  else
    (true, { v with reserved := r :: v.reserved })

/-- Releases the pair of a background request. -/
def release (v : Resolver) (r : Request) : Resolver := { v with reserved := v.reserved.erase r }

/-- Queues a reserved request, or gives it up after the end of intake. -/
def enqueue (v : Resolver) (r : Request) : Resolver :=
  if v.accepting then
    { v with queue := v.queue ++ [r] }
  else
    { v.release r with stats := v.stats.count r.kind .skipped }

/-- Takes the oldest request from the queue. -/
def take (v : Resolver) : Resolver :=
  match v.running, v.queue with
  | none, r :: rest => { v with queue := rest, running := some r }
  | _, _ => v

/-- Ends the request that is being carried out. -/
def finish (v : Resolver) (outcome : Outcome) : Resolver :=
  match v.running with
  | some r => { v.release r with running := none, stats := v.stats.count r.kind outcome }
  | none => v

/-- Ends the intake of background requests. -/
def stop (v : Resolver) : Resolver := { v with accepting := false }

/-- Submits a background request. -/
def submit (v : Resolver) (r : Request) : Resolver :=
  match v.reserve r with
  | (true, v) => v.enqueue r
  | (false, v) => v

/-- Submits background requests in order. -/
def submitAll (v : Resolver) (rs : List Request) : Resolver := rs.foldl submit v

/-- Carries out a request at once. -/
def runNow (v : Resolver) (r : Request) (t : TxnStore) (now : Millis) : Resolver × TxnStore :=
  let (outcome, t) := r.execute t now
  ({ v with stats := v.stats.count r.kind outcome }, t)

/-- Takes the oldest request and carries it out. -/
def runNext (v : Resolver) (t : TxnStore) (now : Millis) : Resolver × TxnStore :=
  let v := v.take
  match v.running with
  | some r => let (outcome, t) := r.execute t now; (v.finish outcome, t)
  | none => (v, t)

/-- Carries out `n` queued requests. -/
def runMany (v : Resolver) (t : TxnStore) (now : Millis) : (n : Nat) → Resolver × TxnStore
  | 0 => (v, t)
  | n + 1 => let (v, t) := v.runNext t now; v.runMany t now n

/-- Carries out everything that is queued. -/
def drain (v : Resolver) (t : TxnStore) (now : Millis) : Resolver × TxnStore :=
  v.runMany t now v.queue.length

/-- Ends the intake and carries out everything that is queued. -/
def shutdown (v : Resolver) (t : TxnStore) (now : Millis) : Resolver × TxnStore :=
  v.stop.drain t now

end Resolver

end Multiversion
