import S2Pac.Lib.Forest
import S2Pac.Lib.Network
import S2Pac.Lib.Faults
import S2Pac.Lib.Pool
import S2Pac.Lib.Log
import S2Pac.Lib.Search
import S2Pac.Lib.Views
import S2Pac.Lib.Ring
import S2Pac.Lib.Work
import S2Pac.Lib.Quiet
import S2Pac.Message
import S2Pac.CertificateChecks
import S2Pac.Quorums
import S2Pac.Identity
import S2Pac.Commitor
import S2Pac.LinearLog
import S2Pac.DagLog
import S2Pac.DagSearch
import S2Pac.Elector
import S2Pac.Coin
import S2Pac.ElectorCalls
import S2Pac.Node
import S2Pac.Bench
import S2Pac.TxQueue
import S2Pac.GetBatch
import S2Pac.NodePool
import S2Pac.Traffic
import S2Pac.Certificates
import S2Pac.Branches
import S2Pac.MainLoop
import S2Pac.Ancestry
import S2Pac.Agreement
import S2Pac.Core
import S2Pac.Core.Instance
import S2Pac.Core.Votes
import S2Pac.Core.Buffers
import S2Pac.Core.Course
import S2Pac.Core.Rounds
import S2Pac.Core.Agreement
import S2Pac.Core.Byzantine
import S2Pac.Core.Evidence
import S2Pac.Core.ProcessCoin
import S2Pac.BigSPB
import S2Pac.BigSPB.Instance
import S2Pac.BigSPB.Votes
import S2Pac.BigSPB.Buffers
import S2Pac.BigSPB.Course
import S2Pac.BigSPB.World
import S2Pac.BigCore
import S2Pac.BigCore.Rounds
import S2Pac.BigCore.Agreement
import S2Pac.DAGBigCore
import S2Pac.DAGBigCore.Moves
import S2Pac.DAGBigCore.Rounds
import S2Pac.DAGBigCore.History
import S2Pac.DAGBigCore.Advance
import S2Pac.DAGBigCore.References
import S2Pac.DAGBigCore.Wakeup
import S2Pac.DAGBigCore.Progress
import S2Pac.DAGBigCore.BareQuorum
import S2Pac.DAGBigCore.Liveness
import S2Pac.DAGBigCore.Leaders
import S2Pac.Conduct
import S2Pac.Slots
import S2Pac.Certified
import S2Pac.Levels
import S2Pac.SpeedVotes
import S2Pac.Elections
import S2Pac.SignedBytes
import S2Pac.Storing
import S2Pac.StoreQueue
import S2Pac.Crash
import S2Pac.Redelivery
import S2Pac.Sender
import S2Pac.Inbox
import S2Pac.ViewChange
import S2Pac.Equivocation
import S2Pac.Protocols
import S2Pac.Rest
import S2Pac.Emitted
import S2Pac.Batches
import S2Pac.Lib.Transport
import S2Pac.Codec
import S2Pac.Transmitor
import S2Pac.Deployment
import S2Pac.Lib.Service
import S2Pac.Services
import S2Pac.BigCore.Tally
import S2Pac.BigCore.Progress
import S2Pac.Stall
import S2Pac.Standstill
