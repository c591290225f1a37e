import FlowRulZ.Agents.Pool
import FlowRulZ.Bytecode.Interning
import FlowRulZ.Cache.Memory
import FlowRulZ.Cluster.Incarnations
import FlowRulZ.Dsl.DagText
import FlowRulZ.Dsl.DeadCode
import FlowRulZ.Dsl.Determinism
import FlowRulZ.Dsl.GateFolding
import FlowRulZ.Dsl.Operands
import FlowRulZ.Dsl.RedundantJumps
import FlowRulZ.Dsl.SchemaText
import FlowRulZ.Dsl.UnusedLabels
import FlowRulZ.Engine.Draining
import FlowRulZ.Engine.Locking
import FlowRulZ.Engine.Traffic
import FlowRulZ.Execstate.Stores
import FlowRulZ.Executor.Buffering
import FlowRulZ.Executor.Calendar
import FlowRulZ.Executor.Chunked
import FlowRulZ.Executor.Concatenation
import FlowRulZ.Executor.ControlFlow
import FlowRulZ.Executor.DagRun
import FlowRulZ.Executor.Failures
import FlowRulZ.Executor.FireAndForget
import FlowRulZ.Executor.GateComparison
import FlowRulZ.Executor.Laps
import FlowRulZ.Executor.MapSafety
import FlowRulZ.Executor.MergedEmits
import FlowRulZ.Executor.Parallel
import FlowRulZ.Executor.Sums
import FlowRulZ.Node.Compensation
import FlowRulZ.Node.Duplicates
import FlowRulZ.Node.Lifecycle
import FlowRulZ.Node.MessageRefinement
import FlowRulZ.Node.Recovery
import FlowRulZ.Node.Retries
import FlowRulZ.Node.ServiceNames
import FlowRulZ.Node.Slots
import FlowRulZ.Partition.Agreement
import FlowRulZ.Partition.Terms
import FlowRulZ.Plandist.Activation
import FlowRulZ.Plandist.Deliveries
import FlowRulZ.Plandist.Echo
import FlowRulZ.Plandist.Fencing
import FlowRulZ.Registry.Pick
import FlowRulZ.Reliability.BreakerCounts
import FlowRulZ.Reliability.DeadLetterFiles
import FlowRulZ.Reliability.Recency
import FlowRulZ.Reliability.SagaAdapter
import FlowRulZ.Reliability.SagaRestarts
import FlowRulZ.Reliability.TokenBucket
import FlowRulZ.Scheduling.TimerWheel
import FlowRulZ.Simulator.Bridge
import FlowRulZ.Tracing.SpanBuffer
import FlowRulZ.Transport.Consumer
import FlowRulZ.Transport.MemoryBus
import FlowRulZ.Transport.ReplyRouter
