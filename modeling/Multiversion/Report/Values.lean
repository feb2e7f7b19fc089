import Multiversion.Lineage.Fate
import Multiversion.Log.Record
import Multiversion.Packed.Row
import Multiversion.Pipeline.CallBuffer
import Multiversion.Report.Basic
import Multiversion.Status
import Multiversion.Visibility.HandOff

/-!
# Reports of domain values

Transactions, cells, mutations, statuses, fates and log records as JSON values.
-/

namespace Multiversion

instance : Reportable TxnId := ⟨fun id => report id.val⟩

instance : Reportable Timestamp := ⟨fun ts => report ts.val⟩

instance : Reportable Phase := ⟨fun p => report p.label⟩

instance : Reportable MutationKind := ⟨fun k => report k.name⟩

instance : Reportable ErrorClass := ⟨fun c => report c.name⟩

instance : Reportable View where
  report v :=
    .ofMembers
      [("id", report v.id), ("begin", report v.begin), ("parent", report v.parent),
        ("commit", report v.commit), ("global", report v.globalCommit),
        ("isolation", report v.isolation.name), ("additive", report v.additive),
        ("state", report v.phase), ("tables", report v.tables)]

instance : Reportable Mutation where
  report m := .ofMembers [("kind", report m.kind), ("key", report m.key), ("value", report m.value)]

instance : Reportable Cell where
  report c :=
    .ofMembers
      [("ts", report c.timestamp), ("txn", report c.writer), ("value", report c.value),
        ("commit", report c.commit)]

/-- A status other than a success or a row not run, as its kind with its text. -/
def Status.reportFailure (kind detail : String) : Json.Value :=
  .ofMembers [("kind", report kind), ("message", report detail)]

instance : Reportable Status where
  report
    | .success => .ofString "SUCCESS"
    | .notRun => .ofString "NOT_RUN"
    | .failure kind detail => Status.reportFailure kind.name detail
    | .badFamily detail => Status.reportFailure "BadFamily" detail
    | .sanityCheckFailure detail => Status.reportFailure "SanityCheckFailure" detail

instance : Reportable RowStatus := ⟨fun r => report (r.seq, r.status)⟩

instance : Reportable Fate where
  report
    | .own => .ofMembers [("fate", report "Own")]
    | .rolledBack => .ofMembers [("fate", report "RolledBack")]
    | .active id timedOut =>
        .ofMembers [("fate", report "Active"), ("txn", report id), ("timedOut", report timedOut)]
    | .committed commit viaParents =>
        .ofMembers
          [("fate", report "Committed"), ("commit", report commit), ("viaParents", report viaParents)]
    | .committedInto ancestor commit =>
        .ofMembers
          [("fate", report "CommittedInto"), ("ancestor", report ancestor), ("commit", report commit)]

instance : Reportable LogRecord where
  report r :=
    .ofMembers <| ("type", report r.type.name) ::
      match r with
      | .begin view aliveAt => [("view", report view), ("keepAlive", report aliveAt)]
      | .commit id ts => [("txn", report id), ("ts", report ts)]
      | .rollback id => [("txn", report id)]
      | .globalCommit id ts => [("txn", report id), ("ts", report ts)]
      | .keepAlive id aliveAt => [("txn", report id), ("at", report aliveAt)]

instance : Reportable HandOff where
  report
    | .rolledBack key writer => .array [report "rolledBack", report key, report writer]
    | .committed key writer ts => .array [report "committed", report key, report writer, report ts]

instance : Reportable Selection where
  report s := .array [report s.allVersions, report s.lower, report s.upper]

/-- A packed row as its columns, with their number. -/
instance : Reportable PackedRow where
  report row :=
    .ofMembers
      [("columns", report (row.columns.toList.map fun (n, value) => (n.toNat, value))),
        ("len", report row.size), ("empty", report (row.size == 0))]

end Multiversion
