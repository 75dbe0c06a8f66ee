import MaculaPy.Foundation.Runs
import MaculaPy.Foundation.Asyncio
import MaculaPy.Blocking.Call
import MaculaPy.Blocking.Queue
import MaculaPy.Blocking.Handover
import MaculaPy.Blocking.Handshake
import MaculaPy.Foundation.History
import MaculaPy.Blocking.Loop
import MaculaPy.Blocking.Tokens
import MaculaPy.Blocking.Inbox
import MaculaPy.Blocking.Handles
import MaculaPy.Foundation.Base64
import MaculaPy.Wire.Value
import MaculaPy.Wire.RoundTrip
import MaculaPy.Serving.Answer
import MaculaPy.Blocking.Waits
import MaculaPy.Serving.Served
import MaculaPy.Serving.Dispatch
import MaculaPy.Serving.Payloads
import MaculaPy.Serving.Stop
import MaculaPy.Serving.StopAgain
import MaculaPy.Wire.Accepted
import MaculaPy.Wire.Received
import MaculaPy.Blocking.Native
import MaculaPy.Blocking.Outcome
import MaculaPy.Wire.DeviceRequest
import MaculaPy.Wire.NativeError
import MaculaPy.Blocking.Typed
import MaculaPy.Foundation.WaitFor
import MaculaPy.Serving.Joining
import MaculaPy.Serving.SelfStop
import MaculaPy.Streams.Stream
import MaculaPy.Streams.Session
import MaculaPy.Streams.Order
import MaculaPy.Foundation.PrefixCode
import MaculaPy.Wire.Text
import MaculaPy.Wire.JsonText
import MaculaPy.Wire.Written
import MaculaPy.Abi.Types
import MaculaPy.Abi.Functions
import MaculaPy.Abi.Arguments
import MaculaPy.Abi.Given
import MaculaPy.Abi.Operations
import MaculaPy.Objects.Methods
import MaculaPy.Objects.Object
import MaculaPy.Objects.Custody
import MaculaPy.Objects.Closed
import MaculaPy.Objects.Iteration
import MaculaPy.Foundation.Readers
import MaculaPy.Wire.Scanner
import MaculaPy.Wire.Loads
import MaculaPy.Wire.ReadBack
import MaculaPy.Wire.PayloadText
import MaculaPy.Foundation.Simulation
import MaculaPy.Native.Functions
import MaculaPy.Native.Memory
import MaculaPy.Native.Refines
import MaculaPy.Foundation.Once
import MaculaPy.Native.Loading
import MaculaPy.Blocking.Rest
import MaculaPy.Blocking.Prompt
import MaculaPy.Native.Threads
import MaculaPy.Peers.Call
import MaculaPy.Peers.Network
import MaculaPy.Peers.Channel
import MaculaPy.Peers.Accounted
import MaculaPy.Peers.Feed
import MaculaPy.Peers.Report
