import Multiversion.Pipeline.Coordinator
import Multiversion.Report.Basic
import Multiversion.Resolution.Resolver

/-!
# Reports of counters

Counters and settings as JSON objects.  Members are named in camel case.
-/

namespace Multiversion

instance : Reportable StoreStats where
  report s :=
    .ofCounters
      [("begun", s.begun), ("committed", s.committed), ("rolledBack", s.rolledBack),
        ("globalCommits", s.globalCommits), ("keepAlives", s.keepAlives),
        ("protocolViolations", s.protocolViolations), ("replayedRecords", s.replayedRecords)]

instance : Reportable ResolverStats where
  report s :=
    .ofCounters
      [("resolvedGlobalCommits", s.resolvedGlobalCommits), ("resolvedTimeouts", s.resolvedTimeouts),
        ("skipped", s.skipped), ("coalesced", s.coalesced), ("failed", s.failed)]

instance : Reportable WriterStats where
  report s :=
    .ofCounters
      [("flushes", s.flushes), ("batches", s.batches), ("rowsWritten", s.rowsWritten),
        ("retriedRows", s.retriedRows), ("failedRows", s.failedRows)]

instance : Reportable Monitor where
  report m :=
    .ofCounters
      [("outstandingBuffers", m.outstanding), ("openedBuffers", m.opened),
        ("closedBuffers", m.closed), ("rejections", m.rejections)]

instance : Reportable RejectionEvent where
  report e :=
    .ofMembers
      [("partition", report e.destination), ("inFlight", report e.inFlight),
        ("limit", report e.limit), ("pendingEntries", report e.pendingEntries)]

instance : Reportable PipelineMetrics where
  report m :=
    .ofMembers
      [("monitor", report m.monitor), ("asyncWriter", report m.pooled),
        ("syncWriter", report m.direct), ("total", report m.total),
        ("maxAsyncThreads", report m.maxWorkers), ("queuedFlushes", report m.queuedFlushes)]

instance : Reportable BufferLimits where
  report l :=
    .ofCounters
      [("maxEntries", l.maxEntries), ("maxHeapSize", l.maxHeapSize),
        ("maxFlushesPerRegion", l.maxFlushes)]

instance : Reportable Backpressure where
  report
    | .block => .ofString "Block"
    | .reject => .ofString "Reject"

/-- Pauses are texts, since they may exceed 64 bits. -/
instance : Reportable PipelineConfig where
  report c :=
    .ofMembers
      [("maxBufferEntries", report c.maxBufferEntries),
        ("maxBufferHeapSize", report c.maxBufferHeapSize), ("maxRetries", report c.maxRetries),
        ("clientPauseMillis", report (toString c.clientPause)),
        ("writeMaxFlushesPerRegion", report c.maxFlushesPerRegion),
        ("maxAsyncThreads", report c.maxAsyncThreads), ("backpressure", report c.backpressure),
        ("buffer", report c.bufferLimits)]

end Multiversion
