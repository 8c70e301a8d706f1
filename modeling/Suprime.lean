import Suprime.Dict
import Suprime.Newest
import Suprime.Run
import Suprime.Store
import Suprime.StoreMerge
import Suprime.StampedStore
import Suprime.StoreSwarm
import Suprime.TreeWalk
import Suprime.Rga
import Suprime.RgaOrder
import Suprime.RgaSwarm
import Suprime.Peers
import Suprime.Membership
import Suprime.Tasks
import Suprime.TaskSwarm
import Suprime.Counting
import Suprime.KvStore
import Suprime.KvSwarm
import Suprime.KvQuorum
import Suprime.KvReads
import Suprime.KvExpiry
import Suprime.NumberLit
import Suprime.PyValue
import Suprime.JsonText
import Suprime.JsonRoundTrip
import Suprime.JsonPrefix
import Suprime.Persistence
import Suprime.WalRecovery
import Suprime.Durability
import Suprime.PyRepr
import Suprime.ReprInjective
import Suprime.Message
import Suprime.JsonNative
import Suprime.SecureTransport
import Suprime.WireAuth
import Suprime.AuthRoundTrip
import Suprime.MultiSend
import Suprime.MassConservation
import Suprime.PushSum
import Suprime.TaskClaims
import Suprime.TaskOnce
import Suprime.TaskProgress
import Suprime.TaskLiveness
import Suprime.TaskCrashes
import Suprime.AntiEntropy
import Suprime.PlainTexts
import Suprime.Reconcile
import Suprime.Exchange
import Suprime.HyParView
import Suprime.ViewBounds
import Suprime.Plumtree
import Suprime.PlumtreeParts
import Suprime.PlumtreeRuns
import Suprime.GraftRepair
import Suprime.GraftProgress
import Suprime.GraftDeadEnd
import Suprime.StoreVersions
import Suprime.Byzantine
import Suprime.QuorumOrder
import Suprime.HonestMajority
import Suprime.JoinLoop
import Suprime.Replicas
import Suprime.Counters
import Suprime.OrSet
import Suprime.ObservedRemove
import Suprime.VectorClock
import Suprime.Maxima
import Suprime.MvRegister
import Suprime.CausalMaxima
import Suprime.LwwMap
import Suprime.LwwConvergence
import Suprime.ChangeReports
import Suprime.PyCodec
import Suprime.CrdtDigests
import Suprime.DigestPath
import Suprime.HpvSwarm
import Suprime.HpvLinks
import Suprime.HpvSymmetry
import Suprime.Batch
import Suprime.PyOperations
import Suprime.WireNode
import Suprime.Rejections
import Suprime.Poisoning
import Suprime.Octets
import Suprime.TcpTransport
import Suprime.BadFrames
import Suprime.ChaCha20
import Suprime.EncryptedTransport
import Suprime.HostileInput
import Suprime.PubSub
import Suprime.Dissemination
import Suprime.Compaction
import Suprime.TombstoneGc
import Suprime.Namespaces
import Suprime.ProbeOrder
import Suprime.PowMod
import Suprime.EdwardsCurve
import Suprime.Ed25519
import Suprime.Curve25519
import Suprime.CurvePoints
import Suprime.PointCoding
import Suprime.Signatures
import Suprime.SealedRoundTrip
import Suprime.TcpFraming
import Suprime.RgaShape
import Suprime.RgaEdits
import Suprime.RgaWords
import Suprime.WalkDepth
import Suprime.RgaCycles
import Suprime.RgaDepth
import Suprime.SetRestarts
import Suprime.Fingerprints
import Suprime.IndexedTable
import Suprime.KvLive
import Suprime.KvIndexes
import Suprime.PlainIndexes
import Suprime.FloodTree
import Suprime.PlumtreeKeeps
import Suprime.PlumtreeFlood
import Suprime.SpanningTree
import Suprime.Subscribers
import Suprime.RaisingCallbacks
import Suprime.LiveReads
import Suprime.QuorumPut
import Suprime.ExpiredReads
import Suprime.FailedWrites
import Suprime.Polling
import Suprime.PyFloats
import Suprime.HostileVotes
import Suprime.LogBounds
import Suprime.TaskIds
import Suprime.ReadRepair
import Suprime.Window
import Suprime.SeenMessages
import Suprime.ClockLattice
import Suprime.PushSumBounds
import Suprime.OnceOnly
import Suprime.LinkSets
import Suprime.FailureDetector
import Suprime.Rejoin
import Suprime.PeerSnapshots
import Suprime.LeaderElection
import Suprime.OverlayWalks
import Suprime.Learning
import Suprime.Chaos
import Suprime.LeadingZeros
import Suprime.ProofOfWork
import Suprime.Lockstep
import Suprime.StoreLockstep
import Suprime.Simulation
import Suprime.SimMoves
import Suprime.SimLockstep
import Suprime.SimHistory
import Suprime.SimStores
import Suprime.SimAccounts
import Suprime.SimRounds
import Suprime.SimQuiesce
import Suprime.Replicator
import Suprime.ReplicatorSwarm
import Suprime.QuietSwarm
import Suprime.ReplicatorReplicas
import Suprime.LeastSquares
import Suprime.TrainingDescent
import Suprime.LearnerSwarm
import Suprime.ParsedJson
import Suprime.TransportStack
import Suprime.HostileNetwork
