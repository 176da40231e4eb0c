import MuduoCore.Storage.BufferQueue
import MuduoCore.Foundation.TransitionSystem
import MuduoCore.Polling.Channel
import MuduoCore.Polling.EPollPoller
import MuduoCore.Polling.Registration
import MuduoCore.Loop.EventLoop
import MuduoCore.Loop.LoopThreads
import MuduoCore.Loop.Quit
import MuduoCore.Loop.EventLoopThread
import MuduoCore.Connection.StateOrder
import MuduoCore.Polling.RegisteredChannel
import MuduoCore.Connection.TcpConnection
import MuduoCore.Connection.ConnectionRun
import MuduoCore.Connection.Placement
import MuduoCore.Connection.Lifetime
import MuduoCore.Connection.PayloadMemory
import MuduoCore.Connection.OutputStream
import MuduoCore.Connection.Establishment
import MuduoCore.Connection.CallbackProtocol
import MuduoCore.Connection.CallOrder
import MuduoCore.Connection.HalfClose
import MuduoCore.Connection.StateRefinement
import MuduoCore.Server.TcpServer
import MuduoCore.Server.ServerRun
import MuduoCore.Server.Registry
import MuduoCore.Server.LoopAffinity
import MuduoCore.Connection.FileOrder
import MuduoCore.Connection.Hosted
import MuduoCore.Server.ConnectionView
import MuduoCore.Connection.Arrival
import MuduoCore.Connection.Retention
import MuduoCore.Server.Dispatch
import MuduoCore.Connection.Teardown
import MuduoCore.Server.Destruction
import MuduoCore.Storage.ScatterRead
import MuduoCore.Storage.WrappedSizes
import MuduoCore.Storage.RetrievedStrings
import MuduoCore.Connection.SendPath
import MuduoCore.Polling.NoInterest
import MuduoCore.Connection.OutputRun
import MuduoCore.Connection.FileChain
import MuduoCore.Connection.LoggedErrors
import MuduoCore.Server.PoolThreads
import MuduoCore.Server.LastUse
import MuduoCore.Foundation.ServiceQueue
import MuduoCore.Foundation.TakingTurns
import MuduoCore.Polling.Polls
import MuduoCore.Polling.NoStarvation
import MuduoCore.Polling.Projection
import MuduoCore.Connection.Removal
import MuduoCore.Connection.EchoServer
import MuduoCore.Server.Descriptors
import MuduoCore.Server.RoundRobin
import MuduoCore.Loop.Reactor
import MuduoCore.Loop.Iteration
import MuduoCore.Loop.ThreadIdentity
import MuduoCore.Loop.LoopPool
import MuduoCore.Foundation.DigitText
import MuduoCore.Server.Addresses
import MuduoCore.Loop.Threads
import MuduoCore.Loop.ThreadOwners
import MuduoCore.Foundation.Progress
import MuduoCore.Server.Progress
import MuduoCore.Server.FairRuns
import MuduoCore.Server.QueuedFunctors
import MuduoCore.Server.Completion
