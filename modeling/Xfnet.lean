import Xfnet.Queue.Fifo
import Xfnet.Timer.Shutdown
import Xfnet.Timer.Handles
import Xfnet.Timer.Ticks
import Xfnet.Timer.Lifecycle
import Xfnet.TcpClient.Retry
import Xfnet.TcpClient.Lifecycle
import Xfnet.EventLoop.Interleaving
import Xfnet.EventLoop.Restart
import Xfnet.EventLoop.Dispatch
import Xfnet.EventLoop.Group
import Xfnet.TcpServer.Start
import Xfnet.TcpServer.Rounds
import Xfnet.TcpServer.Accepting
import Xfnet.Stream.Overloads
import Xfnet.Stream.Waits
import Xfnet.Stream.RoundTrip
import Xfnet.Tools.ClosedLoop
import Xfnet.Tools.AnyInput
import Xfnet.Tools.Draining
import Xfnet.Tools.SendQueue
import Xfnet.Queue.Completion
import Xfnet.Queue.Linearizable
import Xfnet.EventLoop.Registration
import Xfnet.Stream.Bounds
import Xfnet.Address.Told
import Xfnet.Address.Family
import Xfnet.Address.Malformed
import Xfnet.EventLoop.Batch
import Xfnet.Stream.Received
import Xfnet.Stream.SendCodes
import Xfnet.Stream.PeerClosed
import Xfnet.Connector.Returns
import Xfnet.SocketUtil.Budget
import Xfnet.Descriptors
import Xfnet.Timer.Interval
