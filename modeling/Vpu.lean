import Vpu.Machine.Run
import Vpu.ToMathlib.RingWindow
import Vpu.Model.Core.Cdr
import Vpu.Model.Core.CdrQueue
import Vpu.Soundness.CdrRing
import Vpu.Soundness.CdrLateAck
import Vpu.ToMathlib.Blit
import Vpu.ToMathlib.Frames
import Vpu.Model.Core.ConnCdr
import Vpu.Soundness.CdrFraming
import Vpu.Soundness.FaxFifo
import Vpu.Soundness.CallClock
import Vpu.Soundness.CallCount
import Vpu.Soundness.LiveListen
import Vpu.Soundness.VoiceHandles
import Vpu.Soundness.FaxBuffer
import Vpu.Soundness.VoiceBounds
import Vpu.Soundness.PacketBounds
import Vpu.Soundness.OldPackets
import Vpu.Soundness.LiveMatch
import Vpu.Soundness.BlockFresh
import Vpu.Soundness.NoLoss
import Vpu.Soundness.PktBorrow
import Vpu.Soundness.SlotExclusion
import Vpu.Soundness.MaBounds
import Vpu.Soundness.FaxRounds
import Vpu.Soundness.FaxLeftovers
import Vpu.Soundness.PktLedger
import Vpu.Soundness.VoiceNames
import Vpu.Soundness.ReloadTrace
import Vpu.Soundness.ReloadSame
import Vpu.Soundness.ReloadRefused
import Vpu.Soundness.FaxPool
import Vpu.Soundness.StopRecords
import Vpu.Soundness.FilePlayback
import Vpu.Soundness.RootRace
import Vpu.Soundness.CmdBounds
import Vpu.Soundness.MaPayloads
import Vpu.Soundness.TwoDates
import Vpu.Soundness.RemovedDates
import Vpu.Soundness.Retention
import Vpu.Soundness.DirHandover
import Vpu.Soundness.DirResume
import Vpu.Soundness.FileLengths
import Vpu.Soundness.ServPackets
import Vpu.Soundness.WaveFile
import Vpu.Soundness.DateNames
import Vpu.Soundness.DirTable
import Vpu.Soundness.FaxTable
import Vpu.Soundness.NullValues
import Vpu.Soundness.PktConfined
import Vpu.Soundness.YamlSettings
import Vpu.Soundness.CdrDelivery
import Vpu.Soundness.EcmPage
import Vpu.Soundness.FaxRanges
import Vpu.Soundness.RecordedPlay
import Vpu.Soundness.Connections
import Vpu.Soundness.FaxPictures
import Vpu.Soundness.ParallelParse
import Vpu.Soundness.NoDeadlock
import Vpu.Soundness.FaxAudio
import Vpu.Soundness.FaxTours
import Vpu.Soundness.RecordTrail
