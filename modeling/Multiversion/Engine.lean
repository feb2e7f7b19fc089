import Multiversion.Read
import Multiversion.Region
import Multiversion.Resolution.Resolver

/-!
# The engine

A transaction store, the cells of one storage partition, a clock, and the background work between
them.  Reads and batches look at the store as it is at that moment; what they leave for background work
waits until `Engine.settle`.

* `Engine.submit` — a change of the transaction table;
* `Engine.get`, `Engine.scan` — transactional reads;
* `Engine.applyBatch` — a batch of mutations sent to a region;
* `Engine.settle` — carries out the background work that is queued.
-/

namespace Multiversion

/-- A transaction store with cells, clock and background work. -/
structure Engine where
  store : TxnStore
  cells : CellStore := {}
  clock : Clock := {}
  -- Whether time passes for the store; if not, nothing ever misses its deadline.
  keepsTime : Bool := true
  resolver : Option Resolver := none
  sweeper : Sweeper := .ignoring

namespace Engine

/-- The clock reading that the store works with. -/
def now (e : Engine) : Millis := if e.keepsTime then e.clock.now else 0

/-- Read access to the transaction table at this moment. -/
def directory (e : Engine) : Directory := e.store.directory e.now

/-- Submits a change of the transaction table. -/
def submit (e : Engine) (change : Change) : Except TxnError Bool × Engine :=
  let (answer, store) := e.store.submit e.now change
  (answer, { e with store })

/-- Submits changes in order, up to the first that is refused. -/
def submitAll (e : Engine) : List Change → Except TxnError Unit × Engine
  | [] => (.ok (), e)
  | change :: rest =>
      match e.submit change with
      | (.error err, e) => (.error err, e)
      | (.ok _, e) => e.submitAll rest

/-- Hands requests to the resolver, if there is one. -/
def request (e : Engine) (rs : List Request) : Engine :=
  { e with resolver := e.resolver.map (·.submitAll rs) }

/-- Hands over what a read left behind. -/
def post (e : Engine) (outbox : Outbox) : Engine :=
  let e := e.request outbox.requests
  let (sweeper, cells) := e.sweeper.receiveAll e.cells outbox.handOffs
  { e with sweeper, cells }

/-- Reads the value of one row as a reader sees it. -/
def get (e : Engine) (reader : View) (key : Bytes) :
    Except TxnError (Option Mutation) × List HandOff × Engine :=
  let (answer, outbox) := Read.get e.directory reader e.cells key
  (answer, outbox.handOffs, e.post outbox)

/-- Reads the rows of a range as a reader sees them. -/
def scan (e : Engine) (reader : View) (range : KeyRange) :
    Except ReadError (List Mutation) × List HandOff × Engine :=
  let (answer, outbox) := Read.scan e.directory reader e.cells range
  (answer, outbox.handOffs, e.post outbox)

/-- Lets a reader's view examine cells, and hands over what it leaves behind. -/
def examine {α : Type} (e : Engine) (v : Visibility) (look : Directory → Visibility → α × Visibility) :
    α × List HandOff × Visibility × Engine :=
  let (answer, v) := look e.directory v
  (answer, v.outbox.handOffs, v.clearOutbox, e.post v.outbox)

/-- Sends a batch to a region.  A region without a resolver of its own drops its requests. -/
def applyBatch (e : Engine) (r : Region) (resolves : Bool) (txn : View) (batch : List Mutation) :
    List Status × Engine :=
  let (statuses, requests, cells) := r.applyBatch e.directory txn e.cells batch
  let e := { e with cells }
  (statuses, if resolves then e.request requests else e)

/-- Carries out a request at once, if there is a resolver. -/
def resolveNow (e : Engine) (r : Request) : Engine :=
  match e.resolver with
  | none => e
  | some resolver =>
      let (resolver, store) := resolver.runNow r e.store e.now
      { e with resolver := some resolver, store }

/-- Carries out the background work that is queued. -/
def settle (e : Engine) : Engine :=
  let e :=
    match e.resolver with
    | none => e
    | some resolver =>
        let (resolver, store) := resolver.drain e.store e.now
        { e with resolver := some resolver, store }
  let (sweeper, cells) := e.sweeper.drain e.cells
  { e with sweeper, cells }

/-- Shuts the resolver down. -/
def stopResolver (e : Engine) : Engine :=
  match e.resolver with
  | none => e
  | some resolver =>
      let (resolver, store) := resolver.shutdown e.store e.now
      { e with resolver := some resolver, store }

/-- Shuts the sweeper down. -/
def stopSweeper (e : Engine) : Engine :=
  let (sweeper, cells) := e.sweeper.shutdown e.cells
  { e with sweeper, cells }

end Engine

end Multiversion
