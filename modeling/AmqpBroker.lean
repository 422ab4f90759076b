import AmqpBroker.Foundations.AtomicObject
import AmqpBroker.Foundations.Buffer
import AmqpBroker.Foundations.Bytes
import AmqpBroker.Foundations.Chain
import AmqpBroker.Foundations.Custody
import AmqpBroker.Foundations.Descent
import AmqpBroker.Foundations.Execution
import AmqpBroker.Foundations.Fifo
import AmqpBroker.Foundations.Heap
import AmqpBroker.Foundations.Ledger
import AmqpBroker.Foundations.Lockstep
import AmqpBroker.Foundations.Mutex
import AmqpBroker.Foundations.Program
import AmqpBroker.Foundations.Ring
import AmqpBroker.Foundations.Rota
import AmqpBroker.Foundations.Rotation
import AmqpBroker.Foundations.Section
import AmqpBroker.Foundations.Simulation
import AmqpBroker.Foundations.Stream
import AmqpBroker.Foundations.Trie
import AmqpBroker.Model.AmqpMessage
import AmqpBroker.Model.Broker
import AmqpBroker.Model.Connection
import AmqpBroker.Model.HardcodedValues
import AmqpBroker.Model.PoolRace
import AmqpBroker.Model.Process
import AmqpBroker.Model.Queue
import AmqpBroker.Model.QueueAccess
import AmqpBroker.Model.QueuePool
import AmqpBroker.Model.RingAccess
import AmqpBroker.Model.RoundRobin
import AmqpBroker.Model.Server
import AmqpBroker.Model.Signal
import AmqpBroker.Model.StateMachine
import AmqpBroker.Model.Thread
import AmqpBroker.Model.Util
import AmqpBroker.Spec.EvenTurns
import AmqpBroker.Spec.MessageBroker
import AmqpBroker.Spec.Session
import AmqpBroker.Verification.Arguments
import AmqpBroker.Verification.Chunking
import AmqpBroker.Verification.Closing
import AmqpBroker.Verification.ContentHeader
import AmqpBroker.Verification.CutStream
import AmqpBroker.Verification.DeclareOk
import AmqpBroker.Verification.Deliveries
import AmqpBroker.Verification.Dispatch
import AmqpBroker.Verification.Effects
import AmqpBroker.Verification.EvenDealing
import AmqpBroker.Verification.Exchange
import AmqpBroker.Verification.Fates
import AmqpBroker.Verification.Fidelity
import AmqpBroker.Verification.FrameLength
import AmqpBroker.Verification.FrameStream
import AmqpBroker.Verification.Frames
import AmqpBroker.Verification.FullTable
import AmqpBroker.Verification.Handshake
import AmqpBroker.Verification.Invariant
import AmqpBroker.Verification.LegalClients
import AmqpBroker.Verification.LegalProgress
import AmqpBroker.Verification.LoopEnds
import AmqpBroker.Verification.LostQueue
import AmqpBroker.Verification.Malformed
import AmqpBroker.Verification.Membership
import AmqpBroker.Verification.MissingQueue
import AmqpBroker.Verification.OnlyDequeued
import AmqpBroker.Verification.OwnBytes
import AmqpBroker.Verification.OwnSocket
import AmqpBroker.Verification.Ownership
import AmqpBroker.Verification.PoolCallers
import AmqpBroker.Verification.PoolLaws
import AmqpBroker.Verification.PoolLinearizable
import AmqpBroker.Verification.PoolRuns
import AmqpBroker.Verification.Primitives
import AmqpBroker.Verification.ProcessClients
import AmqpBroker.Verification.ProcessRuns
import AmqpBroker.Verification.Publishing
import AmqpBroker.Verification.QueueAccesses
import AmqpBroker.Verification.QueueLaws
import AmqpBroker.Verification.QueueLinearizable
import AmqpBroker.Verification.QueueNames
import AmqpBroker.Verification.QueueRuns
import AmqpBroker.Verification.QueueSpine
import AmqpBroker.Verification.Quiet
import AmqpBroker.Verification.ReadResults
import AmqpBroker.Verification.Reading
import AmqpBroker.Verification.Reclaim
import AmqpBroker.Verification.Refinement
import AmqpBroker.Verification.Represents
import AmqpBroker.Verification.RingAccesses
import AmqpBroker.Verification.RingLaws
import AmqpBroker.Verification.RingLinearizable
import AmqpBroker.Verification.RingSections
import AmqpBroker.Verification.Rounds
import AmqpBroker.Verification.Routing
import AmqpBroker.Verification.SchedulerRuns
import AmqpBroker.Verification.ScriptFrames
import AmqpBroker.Verification.ScriptRuns
import AmqpBroker.Verification.Sessions
import AmqpBroker.Verification.SignalRace
import AmqpBroker.Verification.Slots
import AmqpBroker.Verification.Steps
import AmqpBroker.Verification.Stops
import AmqpBroker.Verification.ThreadRuns
import AmqpBroker.Verification.Transfers
import AmqpBroker.Verification.TriePaths
import AmqpBroker.Verification.TurnHolder
import AmqpBroker.Verification.Turns
import AmqpBroker.Verification.WriteResults
