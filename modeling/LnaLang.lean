import LnaLang.ChatSpecials
import LnaLang.CjkRuns
import LnaLang.DiskOffloadFailures
import LnaLang.DiskOffloadRanks
import LnaLang.DiskOffloadThreads
import LnaLang.DsmlTrackerReference
import LnaLang.GatewayStream
import LnaLang.HostPoolPages
import LnaLang.HttpRequest
import LnaLang.JobQueue
import LnaLang.JsonBounds
import LnaLang.JsonUnits
import LnaLang.KvCacheContinued
import LnaLang.KvCacheLookup
import LnaLang.ParallelFor
import LnaLang.PrefetchOwnership
import LnaLang.ReplayedCalls
import LnaLang.SessionPayloadRead
import LnaLang.SpeculativeDecodeGreedy
import LnaLang.StreamingCompressor
import LnaLang.StructuredStops
import LnaLang.TensorSpans
import LnaLang.ThinkingState
import LnaLang.ToolBlockScan
import LnaLang.ToolHeapRefinement
import LnaLang.ToolMapRewrite
import LnaLang.ToolMarkerScan
import LnaLang.VisibleAgreement
