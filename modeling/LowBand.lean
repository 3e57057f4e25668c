import LowBand.Lib.Bytes
import LowBand.Lib.RecordLog
import LowBand.Lib.FileBytes
import LowBand.Lib.Run
import LowBand.Lib.Ascii
import LowBand.Lib.Result
import LowBand.Lib.Symmetric
import LowBand.Lib.Queues
import LowBand.Lib.TokenBucket
import LowBand.Lib.Reader
import LowBand.Lib.Bits
import LowBand.Lib.Raster
import LowBand.Lib.Lockstep
import LowBand.Lib.Table
import LowBand.Lib.Streak
import LowBand.Lib.Find
import LowBand.Lib.Signature
import LowBand.Lib.MsbBits
import LowBand.Lib.Inet
import LowBand.Lib.Path
import LowBand.Lib.Loop
import LowBand.Lib.Json
import LowBand.Lib.JsonParser
import LowBand.Lib.Saturate
import LowBand.Lib.Shares
import LowBand.Lib.Quantile
import LowBand.Lib.Ewma
import LowBand.Lib.FirstSeen
import LowBand.Lib.RoundAway
import LowBand.Lib.SinglePrecision
import LowBand.Lib.Text
import LowBand.Lib.Lanes
import LowBand.Lib.Keyed
import LowBand.Lib.Backlog
import LowBand.Lib.Since
import LowBand.Lib.Framing
import LowBand.Lbtp.Pacer
import LowBand.Lbtp.PacerTick
import LowBand.Lbtp.PacerRate
import LowBand.Lbtp.Mtu
import LowBand.Lbtp.Seq
import LowBand.Lbtp.TcpFallback
import LowBand.Lbtp.TurnRelay
import LowBand.Lbtp.Fec
import LowBand.Lbtp.Delay
import LowBand.Lbtp.Cellular
import LowBand.Lbtp.Congestion
import LowBand.Lbtp.IceCandidate
import LowBand.Lbtp.PathMigration
import LowBand.Lbtp.HolePunch
import LowBand.Lbtp.CellularMode
import LowBand.Lbtp.NatKeepalive
import LowBand.Crypto.KeyExchange
import LowBand.Crypto.NoiseIk
import LowBand.Crypto.RelayGuard
import LowBand.Crypto.UdpSession
import LowBand.Crypto.RelayBridge
import LowBand.Crypto.Exchange
import LowBand.Crypto.KnownPeers
import LowBand.Crypto.KnownPeerRuns
import LowBand.Crypto.ShortAuthString
import LowBand.Xfer.Resume
import LowBand.Xfer.PersistentCache
import LowBand.Xfer.CacheCompaction
import LowBand.Xfer.Scheduler
import LowBand.Xfer.Fec
import LowBand.Xfer.DeltaTransfer
import LowBand.Messaging.Audit
import LowBand.Messaging.Clipboard
import LowBand.Messaging.Consent
import LowBand.Messaging.Grants
import LowBand.Messaging.PanicKey
import LowBand.Messaging.PanicState
import LowBand.Messaging.Wire
import LowBand.Messaging.SignedExport
import LowBand.Messaging.JsonExport
import LowBand.Messaging.SessionRecords
import LowBand.Messaging.SessionExport
import LowBand.Messaging.ReliableChannel
import LowBand.Signaling.Server
import LowBand.Signaling.Room
import LowBand.Signaling.RoomJoin
import LowBand.Signaling.Client
import LowBand.Signaling.ClientPost
import LowBand.Signaling.Response
import LowBand.Platform.PaletteTile
import LowBand.Platform.TileClass
import LowBand.Platform.EntropyTile
import LowBand.Platform.TileDecoders
import LowBand.Platform.TileGrid
import LowBand.Platform.TileDiff
import LowBand.Platform.Damage
import LowBand.Platform.PhaseCorrelation
import LowBand.Platform.Scroll
import LowBand.Platform.PlcChain
import LowBand.Platform.ControlLoop
import LowBand.Platform.Tier
import LowBand.Platform.GearPolicy
import LowBand.Platform.Varint
import LowBand.Platform.InputChannel
import LowBand.Platform.Ipc
import LowBand.Platform.IntraRefresh
import LowBand.Platform.TierGears
import LowBand.Platform.CursorSender
import LowBand.Platform.MotionBits
import LowBand.Platform.MotionEncoder
import LowBand.Platform.BudgetLaw
import LowBand.Platform.JitterBuffer
import LowBand.Platform.CursorShapes
import LowBand.Platform.MouseMove
import LowBand.Platform.ReferenceFrame
import LowBand.Platform.IpcServer
import LowBand.Platform.RefinementQueue
import LowBand.Platform.JitterPlayout
import LowBand.Platform.TierRuns
import LowBand.Lowbandd.FileTransfer
import LowBand.Lowbandd.Mesh
import LowBand.Lowbandd.XferWire
import LowBand.Lowbandd.Picture
import LowBand.Lowbandd.ScreenReceiver
import LowBand.Lowbandd.ScreenTransfer
import LowBand.Lowbandd.Adpcm
import LowBand.Lowbandd.Voice
import LowBand.Lowbandd.Inbound
import LowBand.Lowbandd.Session
import LowBand.Lowbandd.MeshInbox
import LowBand.Lowbandd.MeshGroup
import LowBand.Lowbandd.MeshAgreement
import LowBand.Lowbandd.Stun
import LowBand.Lowbandd.MeshMix
import LowBand.Lowbandd.Router
import LowBand.Lowbandd.VoiceGate
import LowBand.Lowbandd.MeshVoice
import LowBand.Obs.Telemetry
import LowBand.Shells.JoinScreen
import LowBand.Shells.ConsentControls
import LowBand.Shells.UiShell
