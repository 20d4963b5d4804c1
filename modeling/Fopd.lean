import Fopd.Lib.Checked
import Fopd.Lib.Commute
import Fopd.Lib.Critical
import Fopd.Lib.CString
import Fopd.Lib.Double
import Fopd.Lib.Following
import Fopd.Lib.Frames
import Fopd.Lib.LazyInit
import Fopd.Lib.LittleEndian
import Fopd.Lib.Mean
import Fopd.Lib.Periodic
import Fopd.Lib.Ring
import Fopd.Lib.RoundedMean
import Fopd.Lib.Rounding
import Fopd.Lib.Shared
import Fopd.Lib.Timeline
import Fopd.Lib.Transitions
import Fopd.Lib.Window
import Fopd.Consts
import Fopd.Memory
import Fopd.Utils
import Fopd.Framing
import Fopd.FrameTypes
import Fopd.Packet
import Fopd.Damage
import Fopd.EntityStats
import Fopd.Decoding
import Fopd.Data
import Fopd.Statistics
import Fopd.RollingAverage
import Fopd.PacketSniffer
import Fopd.Sniffing
import Fopd.Robustness
import Fopd.Segments
import Fopd.Rejection
import Fopd.DpsMeter
import Fopd.Threads
import Fopd.SlidingWindow
import Fopd.WindowSum
import Fopd.Records
import Fopd.MaxDamage
import Fopd.Ping
import Fopd.PingGrammar
import Fopd.PingPipe
import Fopd.Gui
import Fopd.PlotLimits
import Fopd.MeterReads
import Fopd.PlotHistory
import Fopd.RunSummary
import Fopd.Doubles
import Fopd.Methods
import Fopd.Locks
import Fopd.LockRefinement
import Fopd.Pipeline
import Fopd.Display
import Fopd.PlotDoubles
import Fopd.Servers
import Fopd.MemoryDisplay
import Fopd.Instance
import Fopd.ExternalProgram
import Fopd.RenderLoop
