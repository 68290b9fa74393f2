import Memclave.PolyTag
import Memclave.PolyBounds
import Memclave.CounterFacts
import Memclave.ScanFacts
import Memclave.Coverage
import Memclave.FaultExit
import Memclave.Restore
import Memclave.Sections
import Memclave.Push
import Memclave.MacInput
import Memclave.BarrierFacts
import Memclave.StopTaskletFacts
import Memclave.McSyncFacts
import Memclave.Footprint
import Memclave.Stride
import Memclave.ChachaPaths
import Memclave.ChachaCalls
import Memclave.SealFacts
import Memclave.BinarySearchFacts
import Memclave.BfsFacts
import Memclave.GemvFacts
import Memclave.NwFacts
import Memclave.HstFacts
import Memclave.ScanSsaFacts
import Memclave.UniFacts
import Memclave.FirstStageFacts
import Memclave.PackerLoad
import Memclave.TrnsFacts
import Memclave.Wipe
import Memclave.Handover
import Memclave.Session
import Memclave.Resident
import Memclave.Services
import Memclave.ServicesFacts
import Memclave.Exchange
import Memclave.Serve
import Memclave.Boot
import Memclave.BootFacts
import Memclave.Asm
import Memclave.Core
import Memclave.Gate
import Memclave.CoreLayout
import Memclave.CoreRuns
import Memclave.Lib.Simulate
import Memclave.History
import Memclave.CoreSim
import Memclave.CoreLoad
import Memclave.CoreOthers
