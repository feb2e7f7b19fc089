import Multiversion.Ledger.Change
import Multiversion.Ledger.Directory
import Multiversion.Log.Basic

/-!
# Transaction stores

A store is a ledger with a log.  Every accepted change is appended to the log and then applied to the
ledger; if the append fails, the ledger stays as it was.  Opening a store replays its log.

* `Store.submit` — one request;
* `Store.openOn` — opens a store on a device.
-/

namespace Multiversion

/-- Settings of a store. -/
structure StoreConfig where
  syncOnCommit : Bool := true
  -- How long an active transaction may be silent, in milliseconds.
  timeout : Nat := 60000
  partitions : Nat := 16
  deriving DecidableEq, Repr

/-- Counters of a store. -/
structure StoreStats where
  begun : Nat := 0
  committed : Nat := 0
  rolledBack : Nat := 0
  globalCommits : Nat := 0
  keepAlives : Nat := 0
  -- Requests refused as misuse of the table.
  protocolViolations : Nat := 0
  replayedRecords : Nat := 0
  deriving DecidableEq, Repr

namespace StoreStats

/-- Counts an accepted change. -/
def countRecord (s : StoreStats) : RecordType → StoreStats
  | .begin => { s with begun := s.begun + 1 }
  | .commit => { s with committed := s.committed + 1 }
  | .rollback => { s with rolledBack := s.rolledBack + 1 }
  | .globalCommit => { s with globalCommits := s.globalCommits + 1 }
  | .keepAlive => { s with keepAlives := s.keepAlives + 1 }

/-- Counts a refusal, if it is misuse of the table. -/
def countRefusal (s : StoreStats) (e : TxnError) : StoreStats :=
  if e.isProtocolViolation then { s with protocolViolations := s.protocolViolations + 1 } else s

/-- The counters of two stores together. -/
def add (s t : StoreStats) : StoreStats where
  begun := s.begun + t.begun
  committed := s.committed + t.committed
  rolledBack := s.rolledBack + t.rolledBack
  globalCommits := s.globalCommits + t.globalCommits
  keepAlives := s.keepAlives + t.keepAlives
  protocolViolations := s.protocolViolations + t.protocolViolations
  replayedRecords := s.replayedRecords + t.replayedRecords

end StoreStats

/-- A ledger with its log. -/
structure Store where
  ledger : Ledger := {}
  log : Log := {}
  config : StoreConfig := {}
  stats : StoreStats := {}

namespace Store

/-- An empty store with an empty log. -/
def empty (config : StoreConfig) : Store :=
  { log := { syncOnWrite := config.syncOnCommit }, config }

/-- Opens a store on a device.  The device is returned too, since opening may cut off a partial frame
even if a record then turns out to be about an unknown transaction. -/
def openOn (device : Device) (config : StoreConfig) : Except TxnError Store × Device :=
  let log : Log := { device, syncOnWrite := config.syncOnCommit }
  match log.recover with
  | (.error e, log) => (.error e, log.device)
  | (.ok records, log) =>
      match Ledger.replay {} (records.map Prod.snd) with
      | .error e => (.error e, log.device)
      | .ok ledger =>
          (.ok { ledger, log, config, stats := { replayedRecords := records.length } }, log.device)

/-- Writes a record to the log and applies it. -/
def commitRecord (s : Store) (r : LogRecord) : Except TxnError Unit × Store :=
  match s.log.append r with
  | (.error e, log) => (.error e, { s with log })
  | (.ok _, log) =>
      match s.ledger.apply r with
      | .error e => (.error e, { s with log })
      | .ok ledger => (.ok (), { s with log, ledger, stats := s.stats.countRecord r.type })

/-- Submits one request at a clock reading; the answer tells whether it changed anything. -/
def submit (s : Store) (now : Millis) (change : Change) : Except TxnError Bool × Store :=
  match s.ledger.decide now change with
  | .error e => (.error e, { s with stats := s.stats.countRefusal e })
  | .ok none => (.ok false, s)
  | .ok (some r) =>
      match s.commitRecord r with
      | (.error e, s) => (.error e, s)
      | (.ok (), s) => (.ok true, s)

/-- Read access at a clock reading. -/
def directory (s : Store) (now : Millis) : Directory := s.ledger.directory now s.config.timeout

/-- The active transactions with a begin timestamp in `[lower, upper)`. -/
def active (s : Store) (lower upper : Timestamp) (table : Option String) : List BeginKey :=
  s.ledger.active lower upper table

end Store

end Multiversion
