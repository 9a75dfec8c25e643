import Aqueduct.Lib.Bytes
import Aqueduct.Lib.Run
import Aqueduct.Lib.Machine
import Aqueduct.Lib.Pooled
import Aqueduct.Lib.Store
import Aqueduct.Lib.Framing
import Aqueduct.Lib.Tlv
import Aqueduct.Lib.RWLock
import Aqueduct.Lib.RefCount
import Aqueduct.Lib.Unwinding
import Aqueduct.Lib.RoundRobin
import Aqueduct.Lib.LinkedCells
import Aqueduct.Lib.Splitting
import Aqueduct.Lib.Decimal
import Aqueduct.Lib.Fifo
import Aqueduct.Lib.TaskGroup
import Aqueduct.Protocol.Extensions
import Aqueduct.Protocol.Frame
import Aqueduct.Protocol.Codec
import Aqueduct.Protocol.Entries
import Aqueduct.Protocol.Bounds
import Aqueduct.Aal
import Aqueduct.Aal.Reading
import Aqueduct.Aal.Torn
import Aqueduct.Aal.Recovery
import Aqueduct.Aal.Rotation
import Aqueduct.Aal.Sessions
import Aqueduct.Authz
import Aqueduct.Admin
import Aqueduct.Quotas
import Aqueduct.Quotas.Interleaving
import Aqueduct.Quotas.Rates
import Aqueduct.Metrics
import Aqueduct.Mem.Slab
import Aqueduct.WebTransport
import Aqueduct.Broker.Topic
import Aqueduct.Broker.Wildcards
import Aqueduct.Broker.Router
import Aqueduct.Broker.Dispatch
import Aqueduct.Broker.Slots
import Aqueduct.Broker.Sound
import Aqueduct.Broker.Mirror
import Aqueduct.Broker.Batch
import Aqueduct.Broker.PeerPublish
import Aqueduct.Broker.Sequence
import Aqueduct.Broker.Atomicity
import Aqueduct.Broker.Tables
import Aqueduct.Broker.Reachable
import Aqueduct.Broker.Arrays
import Aqueduct.Broker.FanOut
import Aqueduct.Broker.Counters
import Aqueduct.Broker.Backfill
import Aqueduct.Broker.TopicOffsets
import Aqueduct.Broker.Publishers
import Aqueduct.Broker.Fairness
import Aqueduct.Broker.Service
import Aqueduct.Broker.Inbox
import Aqueduct.Broker.Order
import Aqueduct.Broker.Payloads
import Aqueduct.Broker.Writer
import Aqueduct.Broker.Expiry
import Aqueduct.Broker.Redelivery
import Aqueduct.Broker.SubscriberLoop
import Aqueduct.Broker.Wakeup
import Aqueduct.Broker.Drain
import Aqueduct.Broker.Coalescing
import Aqueduct.Broker.FrameCache
import Aqueduct.Broker.Retries
import Aqueduct.Broker.Locks
import Aqueduct.Broker.QueuePool
import Aqueduct.Broker.Queues
import Aqueduct.Broker.MsgRef
import Aqueduct.Broker.RefObjects
import Aqueduct.Broker.RefLedger
import Aqueduct.Broker.RefCalls
import Aqueduct.Broker.NestedRefs
import Aqueduct.Cluster.Mesh
import Aqueduct.Cluster.Storm
import Aqueduct.Transport.Broker
import Aqueduct.Transport.Decompression
import Aqueduct.Transport.Mediation
import Aqueduct.Transport.Aliasing
import Aqueduct.Transport.Reassembly
import Aqueduct.Transport.ReadSlices
import Aqueduct.Transport.Replay
import Aqueduct.Transport.LogSizes
import Aqueduct.Transport.Threads
import Aqueduct.Transport.Resume
import Aqueduct.Transport.Lifecycle
import Aqueduct.Transport.Shutdown
import Aqueduct.Cluster.Compression
import Aqueduct.Cluster.Relay
import Aqueduct.Cluster.Discovery
import Aqueduct.Cluster.Delivery
import Aqueduct.Transport.BatchAccess
import Aqueduct.Cluster.Peers
import Aqueduct.Cluster.Reconnect
import Aqueduct.Cluster.Agreement
import Aqueduct.Cluster.Reconcile
import Aqueduct.Transport.Acks
