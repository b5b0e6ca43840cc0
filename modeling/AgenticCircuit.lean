import AgenticCircuit.Analysis.FlowOneToOne
import AgenticCircuit.Analysis.ZeroDelay
import AgenticCircuit.Bindings.CanonicalIdentity
import AgenticCircuit.Bindings.Identities
import AgenticCircuit.CodeGen.PacketLaws
import AgenticCircuit.CodeGen.ScalarExact
import AgenticCircuit.Dialect.AddressSpaces
import AgenticCircuit.Dialect.InterleaveOverlap
import AgenticCircuit.Dialect.LinearLiveness
import AgenticCircuit.Dialect.ProtocolPaths
import AgenticCircuit.Dialect.StateSimulation
import AgenticCircuit.Dialect.TickConversion
import AgenticCircuit.Frontend.ArgumentLiveness
import AgenticCircuit.Frontend.Execution
import AgenticCircuit.Frontend.Linear
import AgenticCircuit.Frontend.Progress
import AgenticCircuit.Gfsim.Arbitration
import AgenticCircuit.Gfsim.ArrayPorts
import AgenticCircuit.Gfsim.Completion
import AgenticCircuit.Gfsim.DomainCycles
import AgenticCircuit.Gfsim.Handshake
import AgenticCircuit.Gfsim.Link
import AgenticCircuit.Gfsim.MemoryWrites
import AgenticCircuit.Gfsim.ProcessMachine
import AgenticCircuit.Gfsim.QueueSpace
import AgenticCircuit.Gfsim.RecordedLog
import AgenticCircuit.Gfsim.ResourceGrants
import AgenticCircuit.Gfsim.Snapshot
import AgenticCircuit.Gfsim.SteppedModels
import AgenticCircuit.Gfsim.TimeCap
import AgenticCircuit.Gfsim.TimedDelivery
import AgenticCircuit.Gfsim.TraceCursor
import AgenticCircuit.Gfsim.Window
import AgenticCircuit.Noc.CreditState
import AgenticCircuit.Noc.Draining
import AgenticCircuit.Npu.ReadAfterWrite
import AgenticCircuit.Npu.Retirement
import AgenticCircuit.ProcessPlan.ExpansionFlow
import AgenticCircuit.Tools.PackEventLog
import AgenticCircuit.Trace.Stream
import AgenticCircuit.Transforms.CanonicalForm
