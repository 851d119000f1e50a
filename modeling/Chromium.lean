import Chromium.Gpu.CommandTransportSafety
import Chromium.Gpu.RingBufferRuns
import Chromium.Gpu.TextureManagerRuns
import Chromium.DiskCache.BlockFilesRecovery
import Chromium.SafeBrowsing.PrefixSetLayout
import Chromium.SafeBrowsing.StoreNetting
import Chromium.VisitedLink.Rebuild
import Chromium.VisitedLink.FileInStep
import Chromium.DiskCache.BlockFileChainRuns
import Chromium.Courgette.StreamRoundTrip
import Chromium.Courgette.Reassembly
import Chromium.Net.HeaderMerging
import Chromium.Net.PartialData
import Chromium.Net.WebSocketFrameRuns
import Chromium.Net.WebSocketJobRuns
import Chromium.Media.SeekableBufferRuns
import Chromium.Browser.TabStripOrderRuns
import Chromium.Sync.CommitBatch
import Chromium.Base.MatchPattern
import Chromium.Base.PickleRuns
import Chromium.Extensions.URLPatternPrinting
import Chromium.Json.WriteRead
import Chromium.Sync.ReorderedChanges
import Chromium.Sandbox.FirstMatch
import Chromium.Spdy.SpdyErrors
import Chromium.Spdy.SpdyCuts
import Chromium.Spdy.SpdyRoundTrip
import Chromium.Gpu.MappedMemory
import Chromium.Remoting.CompoundBufferRuns
import Chromium.Net.X509Certificate
import Chromium.Net.TransportSecurityClearing
import Chromium.Net.TransportSecurityHeader
import Chromium.Syncable.SaveRuns
import Chromium.DiskCache.Rankings
import Chromium.VisitedLink.Resizing
import Chromium.SafeBrowsing.ChunkRange
import Chromium.SafeBrowsing.ParseGetHash
import Chromium.Gpu.CommonDecoder
import Chromium.DiskCache.MemEntryRanges
import Chromium.Gpu.TextureCompleteness
import Chromium.Gpu.BufferManager
import Chromium.Courgette.AssemblySafety
import Chromium.Net.RawHeaders
import Chromium.Net.ChunkSizes
import Chromium.Net.NameValuePairs
import Chromium.Browser.TabStripOneMove
import Chromium.Net.HttpCacheOrder
import Chromium.Remoting.CompoundBufferInputStream
import Chromium.History.QueryParser
