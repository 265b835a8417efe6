import TimeOff.ReconcileRace
import TimeOff.Replay
import TimeOff.OneEffect
import TimeOff.FaithfulResponse
import TimeOff.LocalFirst
import TimeOff.AtMostOnce
import TimeOff.LostApproval
import TimeOff.BreakerRuns
import TimeOff.BreakerTrips
import TimeOff.DaysCharged
import TimeOff.CreateOutcome
import TimeOff.BatchGuard
import TimeOff.BatchFlags
import TimeOff.BatchAgreement
import TimeOff.BatchFaults
import TimeOff.CreateLanes
import TimeOff.BreakerTwins
import TimeOff.Paging
import TimeOff.ReconcileTwins
import TimeOff.RetryQueue
import TimeOff.BreakerRetries
import TimeOff.IdempotencyManager
import TimeOff.RequestDeduplicator
import TimeOff.PayloadHash
import TimeOff.LoggedPool
import TimeOff.AloneCalls
import TimeOff.RowCells
import TimeOff.SerialOrder
import TimeOff.Isolation
import TimeOff.CommitOrder
import TimeOff.SerialDecisions
import TimeOff.SerialCreates
import TimeOff.Serialisable
import TimeOff.RateLimiter
import TimeOff.TokenBucketLimiter
import TimeOff.MetricsRegistry
import TimeOff.Traceparent
import TimeOff.LockManager
import TimeOff.HashChain
import TimeOff.JsonRecords
import TimeOff.AuditLedger
import TimeOff.AuditHasher
import TimeOff.SlotSet
import TimeOff.EventBus
import TimeOff.EventLoop
import TimeOff.EventReach
import TimeOff.Unsubscribed
import TimeOff.OnceListener
import TimeOff.HistoryReplay
import TimeOff.Calendar
import TimeOff.UtcDate
import TimeOff.WorkingDays
import TimeOff.Promises
import TimeOff.CreatePromises
import TimeOff.CreateTurns
import TimeOff.FairLock
import TimeOff.RetryUtil
import TimeOff.DecidedOnce
import TimeOff.LedgerRuns
import TimeOff.RecordPairs
import TimeOff.AsyncEnds
import TimeOff.LockProgress
import TimeOff.AnsweredPass
import TimeOff.AnsweredQueue
import TimeOff.TimedBreaker
import TimeOff.CallDeadlines
import TimeOff.ListedMeanwhile
import TimeOff.PoolJournal
import TimeOff.SyncLogs
import TimeOff.SyncLogRuns
import TimeOff.SyncColumns
