import SysExploration.Library.Slice
import SysExploration.Library.Ring
import SysExploration.Library.Runs
import SysExploration.Library.Loops
import SysExploration.Library.Lines
import SysExploration.Library.Occurrences
import SysExploration.Library.Overlaps
import SysExploration.Library.Splitting
import SysExploration.Library.Tables
import SysExploration.Library.Reversal
import SysExploration.Library.Numerals
import SysExploration.Library.Transfers
import SysExploration.Machine
import SysExploration.MessageQueue.Model
import SysExploration.MessageQueue.Fifo
import SysExploration.MessageQueue.FifoRefinement
import SysExploration.MessageQueue.Flush
import SysExploration.MessageQueue.Session
import SysExploration.MessageQueue.Broadcast
import SysExploration.MessageQueue.ShortWrites
import SysExploration.MessageQueue.Reclaim
import SysExploration.MessageQueue.SlowConsumers
import SysExploration.MessageQueue.Release
import SysExploration.MessageQueue.Indices
import SysExploration.Server.Model
import SysExploration.Server.FdTable
import SysExploration.Server.FdSet
import SysExploration.Server.Sessions
import SysExploration.Server.Accepting
import SysExploration.Server.Registration
import SysExploration.Server.Walk
import SysExploration.Server.AcceptFailures
import SysExploration.Server.Ingest
import SysExploration.Server.Syscalls
import SysExploration.Server.Streams
import SysExploration.Server.Delivery
import SysExploration.Threads.Model
import SysExploration.Threads.Ownership
import SysExploration.Threads.Service
import SysExploration.Sds.Model
import SysExploration.Sds.Room
import SysExploration.Sds.Operations
import SysExploration.Sds.Editing
import SysExploration.Sds.Refinement
import SysExploration.Sds.Growth
import SysExploration.Sds.Numbers
import SysExploration.Sds.Format
import SysExploration.Sds.Quoting
import SysExploration.Sds.Arguments
import SysExploration.Sds.RoundTrip
import SysExploration.Sds.Splitting
import SysExploration.Commons.ReadBuffer
import SysExploration.Commons.ByteQueue
import SysExploration.Commons.Growth
import SysExploration.Commons.LineStream
import SysExploration.Commons.LineRounds
import SysExploration.Commons.LineReading
import SysExploration.Commons.LineMemory
import SysExploration.Commons.LineRecovery
import SysExploration.Search.Fgrep
import SysExploration.Search.LineSearch
import SysExploration.Search.StreamSearch
import SysExploration.Search.WholeFile
import SysExploration.Search.ChunkSearch
import SysExploration.Search.Termination
import SysExploration.Search.Script
import SysExploration.Tail.Model
import SysExploration.Tail.Wakeups
import SysExploration.Tail.Following
import SysExploration.Tail.Truncation
import SysExploration.Copying.Cat
import SysExploration.Copying.Echo
import SysExploration.Copying.SingleConnection
import SysExploration.Sockets.Model
import SysExploration.Sockets.Setup
import SysExploration.Sockets.Ports
