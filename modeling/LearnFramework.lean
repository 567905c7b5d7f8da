import LearnFramework.Lib.Machine
import LearnFramework.Lib.Family
import LearnFramework.CheckQueue.Queue
import LearnFramework.CheckQueue.Pool
import LearnFramework.CheckQueue.Ledger
import LearnFramework.CheckQueue.Wakeup
import LearnFramework.CheckQueue.Result
import LearnFramework.CheckQueue.Control
import LearnFramework.CheckQueue.Release
import LearnFramework.CheckQueue.Main
import LearnFramework.Lib.Cursor
import LearnFramework.Tracker.UdpTracker
import LearnFramework.Tracker.Serving
import LearnFramework.Tracker.Accounting
import LearnFramework.Lib.Hex
import LearnFramework.Ecc.Libcrypto
import LearnFramework.Ecc.OpenEcc
import LearnFramework.Ecc.KeyPair
import LearnFramework.Ecc.Agreement
import LearnFramework.Ecc.ThirdParty
import LearnFramework.Eth.CppString
import LearnFramework.Eth.PutDecodedDatum
import LearnFramework.Eth.Grammar
import LearnFramework.Eth.Denotation
import LearnFramework.Kafka.Producer
import LearnFramework.Kafka.Bounds
import LearnFramework.Kafka.Lines
import LearnFramework.Kafka.Consumer
import LearnFramework.Lib.Protocol
import LearnFramework.Kafka.HandleProtocol
import LearnFramework.Ecc.FailedImport
import LearnFramework.Ecc.BadPeer
import LearnFramework.Ecc.Binding
import LearnFramework.Eth.Scan
import LearnFramework.Eth.Termination
import LearnFramework.Eth.Throwing
import LearnFramework.Eth.Received
import LearnFramework.Eth.Adjacent
import LearnFramework.Eth.Spacing
import LearnFramework.Eth.WordBytes
import LearnFramework.Eth.Hashing
import LearnFramework.Lib.Ostream
import LearnFramework.Kafka.CConsumer
import LearnFramework.Kafka.Pointers
import LearnFramework.Kafka.Printing
import LearnFramework.Tracker.Replies
import LearnFramework.Tracker.Stopping
import LearnFramework.Tracker.PeerServer
import LearnFramework.CheckQueue.Counters
import LearnFramework.Eth.Transfer
import LearnFramework.HexText.Bounds
import LearnFramework.HexText.RoundTrip
import LearnFramework.Sync.Cycle
import LearnFramework.CheckQueue.FailFast
import LearnFramework.CheckQueue.Termination
import LearnFramework.Sync.Grant
import LearnFramework.CheckQueue.Clients
import LearnFramework.Lib.PollLoop
import LearnFramework.Lib.Outbox
import LearnFramework.Kafka.Delivery
import LearnFramework.HexText.Canonical
import LearnFramework.Tracker.DhtServer
import LearnFramework.Ecc.Halves
import LearnFramework.Ecc.SelfTest
