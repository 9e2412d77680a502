import Snowpatch.Library.Machine
import Snowpatch.Library.Transaction
import Snowpatch.Library.KvTree
import Snowpatch.Library.Text
import Snowpatch.Library.Utf8
import Snowpatch.Library.Bincode
import Snowpatch.Library.ByteTree
import Snowpatch.Library.Refinement
import Snowpatch.Library.Serial
import Snowpatch.Library.Sweep
import Snowpatch.Library.Fairness
import Snowpatch.Library.Consumer
import Snowpatch.Library.Fallible
import Snowpatch.Library.Firsts
import Snowpatch.Data
import Snowpatch.Database
import Snowpatch.Watchcat
import Snowpatch.DoWork
import Snowpatch.PushContent
import Snowpatch.Git
import Snowpatch.Runner
import Snowpatch.GitHub
import Snowpatch.Dispatch
import Snowpatch.DispatchKeys
import Snowpatch.Pipeline
import Snowpatch.Custody
import Snowpatch.GitStage
import Snowpatch.Conservation
import Snowpatch.RunnerStage
import Snowpatch.Reporting
import Snowpatch.WakeUp
import Snowpatch.Startup
import Snowpatch.Recovery
import Snowpatch.Pushes
import Snowpatch.Watchers
import Snowpatch.Delivery
import Snowpatch.ThreadPool
import Snowpatch.Polling
import Snowpatch.Outages
import Snowpatch.FailedWork
import Snowpatch.Passes
import Snowpatch.Overwrites
import Snowpatch.Worktrees
import Snowpatch.WorkerLoop
import Snowpatch.MoveToNewQueue
import Snowpatch.Lifecycle
import Snowpatch.Submissions
import Snowpatch.GitSerial
import Snowpatch.Scanning
import Snowpatch.LivePasses
import Snowpatch.Liveness
import Snowpatch.DispatchLiveness
import Snowpatch.WorkLiveness
import Snowpatch.WatcherLiveness
import Snowpatch.SeriesLiveness
import Snowpatch.ReportLiveness
import Snowpatch.ByteStore
import Snowpatch.Verdicts
