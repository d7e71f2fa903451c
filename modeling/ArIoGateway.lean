import ArIoGateway.Admission
import ArIoGateway.AntRecords
import ArIoGateway.AvroTags
import ArIoGateway.Base64Data
import ArIoGateway.BinaryFrames
import ArIoGateway.BinaryFraming
import ArIoGateway.BlockBinding
import ArIoGateway.BlockData
import ArIoGateway.BundleDiscovery
import ArIoGateway.BundleFlags
import ArIoGateway.BundleInspection
import ArIoGateway.BundleLookup
import ArIoGateway.ByteRanges
import ArIoGateway.CachedRanges
import ArIoGateway.CanonicalJson
import ArIoGateway.ChunkAnchor
import ArIoGateway.CivilDate
import ArIoGateway.ContentAgreement
import ArIoGateway.ContentIdentity
import ArIoGateway.ContentPolicy
import ArIoGateway.ContentViews
import ArIoGateway.DataPathWalk
import ArIoGateway.DescriptorCache
import ArIoGateway.Foundation.Batches
import ArIoGateway.Foundation.Bencode
import ArIoGateway.Foundation.HashTrees
import ArIoGateway.Foundation.Intervals
import ArIoGateway.Foundation.RangeReads
import ArIoGateway.Foundation.Sweeps
import ArIoGateway.GraphqlPages
import ArIoGateway.HeaderBinding
import ArIoGateway.HeaderWindow
import ArIoGateway.HedgedRequests
import ArIoGateway.HttpSignatures
import ArIoGateway.ImmutableObjects
import ArIoGateway.ImportPipeline
import ArIoGateway.IndexedLookup
import ArIoGateway.InlineTree
import ArIoGateway.InspectionPages
import ArIoGateway.ManifestCache
import ArIoGateway.MemoryCaches
import ArIoGateway.ObjectAdmission
import ArIoGateway.ObjectStore
import ArIoGateway.Packing
import ArIoGateway.PendingScan
import ArIoGateway.QueryPlans
import ArIoGateway.RangeGrammar
import ArIoGateway.RangeReader
import ArIoGateway.RangeResponses
import ArIoGateway.ResponseBudget
import ArIoGateway.RsaPssWidths
import ArIoGateway.SandboxLabels
import ArIoGateway.ScanCycles
import ArIoGateway.SigningPayloads
import ArIoGateway.SingleFlight
import ArIoGateway.SpoolBudget
import ArIoGateway.StreamedReads
import ArIoGateway.TagDictionaries
import ArIoGateway.TorrentHashing
import ArIoGateway.Torrents
