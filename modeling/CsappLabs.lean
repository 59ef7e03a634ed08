import CsappLabs.Placement
import CsappLabs.LruLinear
import CsappLabs.HeapProbes
import CsappLabs.Realloc
import CsappLabs.FitSearch
import CsappLabs.FreeOrder
import CsappLabs.SizeLimits
import CsappLabs.RoundedSizes
import CsappLabs.HeapBreak
import CsappLabs.Upstream
import CsappLabs.CacheAnswers
import CsappLabs.ShellSignals
import CsappLabs.Sbuf
import CsappLabs.LruOrder
import CsappLabs.SlotIndex
import CsappLabs.Numerals
import CsappLabs.ChildEvents
import CsappLabs.EvalLine
import CsappLabs.LineRender
import CsappLabs.DoitReturns
import CsappLabs.Rio
import CsappLabs.DriverMm
import CsappLabs.DriverPasses
import CsappLabs.Sio
import CsappLabs.TinyProxy
import CsappLabs.Fcyc
import CsappLabs.MainLoop
import CsappLabs.GenRandom
import CsappLabs.GenCoalescing
import CsappLabs.GenBinary
