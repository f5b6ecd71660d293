import MiniOs.Lib.Trace
import MiniOs.Lib.Loop
import MiniOs.Lib.Backlog
import MiniOs.Xv6.Proc
import MiniOs.Xv6.Sections
import MiniOs.Xv6.SliceAccounting
import MiniOs.Xv6.Stamps
import MiniOs.Xv6.Uniprocessor
import MiniOs.Xv6.Bypass
import MiniOs.Xv6.TickBoundary
import MiniOs.Xv6.WaitingTime
import MiniOs.Shell.Token
import MiniOs.Shell.Lexer
import MiniOs.Shell.QuoteAutomaton
import MiniOs.Shell.Grammar
import MiniOs.Shell.Argv
import MiniOs.Shell.JobTable
import MiniOs.Shell.Reaper
import MiniOs.Shell.StopTracking
import MiniOs.Shell.Ledger
import MiniOs.Shell.Completion
import MiniOs.Lib.RightLinear
import MiniOs.Shell.LineGrammar
import MiniOs.Xv6.Locks
import MiniOs.Lib.Runs
import MiniOs.Shell.Sequence
import MiniOs.Shell.Segments
import MiniOs.Shell.Pipeline
import MiniOs.Shell.Actions
import MiniOs.Shell.Delivery
import MiniOs.Shell.Bookkeeping
import MiniOs.Shell.WatchArray
import MiniOs.Shell.WatchList
import MiniOs.Shell.Identity
import MiniOs.Shell.Reports
import MiniOs.Shell.LeadStatus
import MiniOs.Shell.ResumeWait
import MiniOs.Shell.Frecency
import MiniOs.Lib.Lines
import MiniOs.Shell.InputLine
import MiniOs.Shell.Peek
import MiniOs.Lib.Fields
import MiniOs.Shell.Paths
import MiniOs.Shell.Resolve
import MiniOs.Lib.NamedTree
import MiniOs.Shell.Reveal
import MiniOs.Xv6.SlotSteps
import MiniOs.Xv6.Statistics
import MiniOs.Xv6.ArrivalOrder
import MiniOs.Xv6.SlotReuse
import MiniOs.Lib.Descriptors
import MiniOs.Shell.Descriptors
import MiniOs.Lib.Memory
import MiniOs.Shell.Quoting
import MiniOs.Shell.Labels
import MiniOs.Shell.Arguments
import MiniOs.Shell.WordBuffer
import MiniOs.Shell.Hop
import MiniOs.Lib.Tally
import MiniOs.Shell.BgPipeline
import MiniOs.Shell.Snoop
import MiniOs.Lib.Files
import MiniOs.Shell.Streams
import MiniOs.Shell.Ping
import MiniOs.Lib.Monitor
import MiniOs.Xv6.Sleeplock
import MiniOs.Lib.DList
import MiniOs.Lib.RedoLog
import MiniOs.Lib.RingBuf
import MiniOs.Xv6.BufferCache
import MiniOs.Xv6.Commit
import MiniOs.Xv6.Crash
import MiniOs.Xv6.ExitStatus
import MiniOs.Xv6.LogWait
import MiniOs.Xv6.Pipe
import MiniOs.Xv6.Wait
import MiniOs.Lib.PagedMemory
import MiniOs.Lib.RadixTree
import MiniOs.Shell.JobControl
import MiniOs.Xv6.AddressSpace
import MiniOs.Xv6.Exec
import MiniOs.Xv6.UserMemory
