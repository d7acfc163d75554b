import EmbeddedAccelerator.Clocked.BlockRam
import EmbeddedAccelerator.Clocked.Events
import EmbeddedAccelerator.Clocked.Pulses
import EmbeddedAccelerator.Clocked.Run
import EmbeddedAccelerator.Clocked.Sessions
import EmbeddedAccelerator.Clocked.ShiftRegister
import EmbeddedAccelerator.Clocked.Signed
import EmbeddedAccelerator.Clocked.Sums
import EmbeddedAccelerator.Clocked.Transitions
import EmbeddedAccelerator.Clocked.Words
import EmbeddedAccelerator.Completion
import EmbeddedAccelerator.ComputeControl
import EmbeddedAccelerator.Computing
import EmbeddedAccelerator.Coprocessor
import EmbeddedAccelerator.Copying.Chains
import EmbeddedAccelerator.Copying.Rings
import EmbeddedAccelerator.Copying.Stores
import EmbeddedAccelerator.Copying.Windows
import EmbeddedAccelerator.Datapath.Accumulation
import EmbeddedAccelerator.Datapath.Blocks
import EmbeddedAccelerator.Datapath.Product
import EmbeddedAccelerator.Datapath.Progress
import EmbeddedAccelerator.Datapath.Result
import EmbeddedAccelerator.Datapath.Weights
import EmbeddedAccelerator.Device
import EmbeddedAccelerator.Encoding
import EmbeddedAccelerator.EndToEnd
import EmbeddedAccelerator.Events.ScatterB
import EmbeddedAccelerator.Events.Streams
import EmbeddedAccelerator.Freshness
import EmbeddedAccelerator.GatherC
import EmbeddedAccelerator.Gathering
import EmbeddedAccelerator.Handshakes
import EmbeddedAccelerator.Host
import EmbeddedAccelerator.HostProgram
import EmbeddedAccelerator.HostWrites
import EmbeddedAccelerator.Loading
import EmbeddedAccelerator.Machine
import EmbeddedAccelerator.MatrixMultiply
import EmbeddedAccelerator.Offload
import EmbeddedAccelerator.Overflow
import EmbeddedAccelerator.PEArray
import EmbeddedAccelerator.Params
import EmbeddedAccelerator.ReadChannel
import EmbeddedAccelerator.Recovery
import EmbeddedAccelerator.Reset
import EmbeddedAccelerator.Reuse
import EmbeddedAccelerator.ScatterA
import EmbeddedAccelerator.ScatterB
import EmbeddedAccelerator.Schedule.Accumulate
import EmbeddedAccelerator.Schedule.Aligned
import EmbeddedAccelerator.Schedule.Load
import EmbeddedAccelerator.Schedule.Located
import EmbeddedAccelerator.Schedule.Pass
import EmbeddedAccelerator.Schedule.Passes
import EmbeddedAccelerator.Schedule.Stream
import EmbeddedAccelerator.Schedule.Timeline
import EmbeddedAccelerator.Shapes
import EmbeddedAccelerator.ShiftHistory
import EmbeddedAccelerator.Streaming
import EmbeddedAccelerator.UsrControl
import EmbeddedAccelerator.UsrLogic
import EmbeddedAccelerator.Xdma.ApertureRuns
import EmbeddedAccelerator.Xdma.Apertures
import EmbeddedAccelerator.Xdma.CardWrites
import EmbeddedAccelerator.Xdma.Descriptors
import EmbeddedAccelerator.Xdma.Draining
import EmbeddedAccelerator.Xdma.Engines
import EmbeddedAccelerator.Xdma.LateInterrupts
import EmbeddedAccelerator.Xdma.Mappings
import EmbeddedAccelerator.Xdma.Nowait
import EmbeddedAccelerator.Xdma.Outstanding
import EmbeddedAccelerator.Xdma.Queues
import EmbeddedAccelerator.Xdma.Requests
import EmbeddedAccelerator.Xdma.RoundTrips
import EmbeddedAccelerator.Xdma.Submissions
import EmbeddedAccelerator.Xdma.Transfers
import EmbeddedAccelerator.Xdma.UserBuffers
import EmbeddedAccelerator.Xdma.Vectored
import EmbeddedAccelerator.Xdma.Waiting
import EmbeddedAccelerator.XdmaApp
