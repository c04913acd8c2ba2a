import NioSocket.Net.AsyncWriter
import NioSocket.Net.Delivery
import NioSocket.Net.Rejection
import NioSocket.Net.Reconnect
import NioSocket.Net.TooLong
import NioSocket.Net.TcpConnection
import NioSocket.Net.Autorecovering
import NioSocket.Net.InitializerTree
import NioSocket.Net.InitializerFailure
import NioSocket.Net.Servers
import NioSocket.Pool.Nodes
import NioSocket.Buffer.Release
import NioSocket.Buffer.RoundTrip
import NioSocket.Net.ReadLoop
import NioSocket.Pool.Arena
import NioSocket.Lib.Links
import NioSocket.Net.Guessing
import NioSocket.Pool.EarlyExit
import NioSocket.Pool.Sizes
import NioSocket.Buffer.Discarding
import NioSocket.Buffer.Aliasing
import NioSocket.Buffer.Bounds
import NioSocket.Buffer.Appending
import NioSocket.Net.Encoding
import NioSocket.Net.ReactorGroup
import NioSocket.Net.SctpSend
import NioSocket.Net.HandlerNames
import NioSocket.Net.Propagation
import NioSocket.Buffer.IndexOrder
import NioSocket.Net.Untouched
import NioSocket.Net.Reassembly
import NioSocket.Pool.Isolation
import NioSocket.Pool.Refinement
import NioSocket.Pool.Beside
import NioSocket.Net.Link
import NioSocket.Concurrent.ExecutorService
import NioSocket.Concurrent.ConcurrentHashMap
