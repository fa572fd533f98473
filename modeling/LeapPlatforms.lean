import LeapPlatforms.Foundation.TransitionSystem
import LeapPlatforms.Foundation.RewindFifo
import LeapPlatforms.Foundation.GoBackN
import LeapPlatforms.Foundation.LossyLink
import LeapPlatforms.Foundation.Watch
import LeapPlatforms.Foundation.Marshal
import LeapPlatforms.Foundation.Crc
import LeapPlatforms.Foundation.CrcPolynomial
import LeapPlatforms.Foundation.FifoLink
import LeapPlatforms.Foundation.Messages
import LeapPlatforms.Foundation.Tiling
import LeapPlatforms.Foundation.Rotation
import LeapPlatforms.Foundation.QueuedRam
import LeapPlatforms.Foundation.SyncRam
import LeapPlatforms.Foundation.Handover
import LeapPlatforms.Foundation.Histories
import LeapPlatforms.Foundation.Scan
import LeapPlatforms.Foundation.OneAtATime
import LeapPlatforms.Foundation.Processes
import LeapPlatforms.Foundation.Sharing
import LeapPlatforms.Foundation.Contest
import LeapPlatforms.Foundation.Rounding
import LeapPlatforms.Foundation.ScanSets
import LeapPlatforms.Foundation.Ladder
import LeapPlatforms.Foundation.Draining
import LeapPlatforms.Aurora.ReliableSender
import LeapPlatforms.Aurora.SequenceWindow
import LeapPlatforms.Aurora.ReliableLink
import LeapPlatforms.Aurora.ReliableReceive
import LeapPlatforms.Aurora.Reliable
import LeapPlatforms.Aurora.ReliableDelivery
import LeapPlatforms.Aurora.FrameEnds
import LeapPlatforms.Aurora.SentFrames
import LeapPlatforms.Aurora.ReliableBookkeeping
import LeapPlatforms.Aurora.Grouped
import LeapPlatforms.Aurora.ChecksumGuarantees
import LeapPlatforms.Aurora.GroupedReceive
import LeapPlatforms.Aurora.GroupedPath
import LeapPlatforms.Aurora.GroupedLink
import LeapPlatforms.Aurora.GroupedParity
import LeapPlatforms.Aurora.AggregateCrc
import LeapPlatforms.Aurora.ParityAgreement
import LeapPlatforms.Aurora.FramePosition
import LeapPlatforms.Aurora.Handshake
import LeapPlatforms.Aurora.HandshakeDelivery
import LeapPlatforms.Aurora.HandshakeHeaders
import LeapPlatforms.Aurora.FlowControl
import LeapPlatforms.Aurora.FlowControlFraming
import LeapPlatforms.Aurora.FlowControlCredit
import LeapPlatforms.Aurora.FlowControlRuns
import LeapPlatforms.Aurora.FlowControlHandshake
import LeapPlatforms.Aurora.HeartbeatRuns
import LeapPlatforms.PciExpress.BlueNoCDriver
import LeapPlatforms.PciExpress.Packets
import LeapPlatforms.PciExpress.PacketPipe
import LeapPlatforms.PciExpress.OutputStream
import LeapPlatforms.PciExpress.FullPackets
import LeapPlatforms.PciExpress.Switch
import LeapPlatforms.PciExpress.FloodTest
import LeapPlatforms.Dram.WriteData
import LeapPlatforms.Dram.ReadData
import LeapPlatforms.Dram.BramBank
import LeapPlatforms.FpgaComponents.Bram
import LeapPlatforms.FpgaComponents.GuardedBram
import LeapPlatforms.FpgaComponents.BufferedBram
import LeapPlatforms.FpgaComponents.PllParams
import LeapPlatforms.FpgaComponents.RoundToSingle
import LeapPlatforms.FpgaComponents.LutRam
import LeapPlatforms.FpgaComponents.CompactMul
import LeapPlatforms.FpgaComponents.PseudoMultiRead
import LeapPlatforms.FpgaComponents.SizedLog2
import LeapPlatforms.Umf.Message
import LeapPlatforms.Umf.Allocator
import LeapPlatforms.UnixPipe.ChannelTable
import LeapPlatforms.UnixPipe.Link
import LeapPlatforms.PcieCsr.TxWrapper
import LeapPlatforms.PcieCsr.WritePayload
import LeapPlatforms.PcieCsr.WriteProgress
import LeapPlatforms.PcieCsr.DmaCtrl
import LeapPlatforms.PcieCsr.TxServer
import LeapPlatforms.PcieCsr.DmaSplitting
import LeapPlatforms.PcieCsr.RxWrapper
import LeapPlatforms.PcieCsr.RxPayload
import LeapPlatforms.PcieCsr.RxFlow
import LeapPlatforms.PcieCsr.DmaRead
import LeapPlatforms.PcieCsr.CsrHostCtrl
import LeapPlatforms.PcieCsr.CpldServer
import LeapPlatforms.PcieCsr.HostAccess
import LeapPlatforms.PcieCsr.RegisterFile
import LeapPlatforms.PcieCsr.HostSide
import LeapPlatforms.PcieCsr.HostReads
import LeapPlatforms.PcieCsr.IntrController
import LeapPlatforms.PcieCsr.SoftReset
import LeapPlatforms.PcieCsr.BufferedWrite
import LeapPlatforms.PcieCsr.ChannelInit
import LeapPlatforms.LeapFpgaCtrl.Reservation
import LeapPlatforms.LeapFpgaCtrl.Invocation
import LeapPlatforms.LeapFpgaCtrl.FailureAtomicity
import LeapPlatforms.LeapFpgaCtrl.Conduct
import LeapPlatforms.LeapFpgaCtrl.Ownership
import LeapPlatforms.LeapFpgaCtrl.SignaturePersistence
import LeapPlatforms.LeapFpgaCtrl.ProgrammingLock
import LeapPlatforms.LeapFpgaCtrl.AccessDiscipline
import LeapPlatforms.LeapFpgaCtrl.DeviceAccess
import LeapPlatforms.LeapFpgaCtrl.Dictionary
import LeapPlatforms.LeapFpgaCtrl.IniParser
import LeapPlatforms.LeapFpgaCtrl.IniRoundTrip
import LeapPlatforms.SdramXupv2.Npi
import LeapPlatforms.SdramXupv2.BurstSplitting
import LeapPlatforms.SdramXupv2.ReadTokens
import LeapPlatforms.Pchnl.Ioctl
import LeapPlatforms.Pchnl.WakeUp
import LeapPlatforms.SataUsrp.Serdes
import LeapPlatforms.SataAurora.Handshake
import LeapPlatforms.Jtag.JtagDevice
import LeapPlatforms.BlueNocPcie.CommandList
import LeapPlatforms.BlueNocPcie.PageSplit
import LeapPlatforms.BlueNocPcie.BoardList
import LeapPlatforms.PcieXupv5.Bridge
import LeapPlatforms.PcieXupv5.Server
import LeapPlatforms.PcieXupv5.ServerViews
import LeapPlatforms.PcieXupv5.ServerDelivery
import LeapPlatforms.PcieXupv5.ServerProgress
