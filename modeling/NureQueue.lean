import NureQueue.Lib.Runs
import NureQueue.Lib.Linearizability
import NureQueue.Lib.MixedRadix
import NureQueue.Index
import NureQueue.Queue
import NureQueue.Bounds
import NureQueue.LapShift
import NureQueue.Monitor
import NureQueue.Ring
import NureQueue.Represents
import NureQueue.Rest
import NureQueue.Period
import NureQueue.Steps
import NureQueue.Ownership
import NureQueue.Stores
import NureQueue.Fifo
import NureQueue.Alone
import NureQueue.Sequential
import NureQueue.Accounting
import NureQueue.Plain
import NureQueue.Clients
import NureQueue.Stale
import NureQueue.Progress
import NureQueue.Observers
import NureQueue.RingMode
import NureQueue.Lib.HappensBefore
import NureQueue.Backoff
import NureQueue.Races
import NureQueue.Rounds
import NureQueue.ClientView
import NureQueue.HalfMoved
import NureQueue.Overlap
import NureQueue.TooLate
import NureQueue.WaitFree
import NureQueue.Lib.SequentialHistory
import NureQueue.Relaxed
import NureQueue.RelaxedRuns
import NureQueue.Unfenced
