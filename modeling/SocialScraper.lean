import SocialScraper.Lib.Runs
import SocialScraper.Lib.TokenBucket
import SocialScraper.Lib.Pacing
import SocialScraper.Network.BreakerTheorems
import SocialScraper.Network.FailureCount
import SocialScraper.Network.RateLimiter
import SocialScraper.Network.RequestRate
import SocialScraper.Network.DeadHost
import SocialScraper.Network.Conservation
import SocialScraper.Network.OneRequest
import SocialScraper.Network.SessionLifecycle
import SocialScraper.Network.HostIsolation
import SocialScraper.Discovery.BrowserManager
import SocialScraper.Discovery.BrowserPool
import SocialScraper.Discovery.Cards
import SocialScraper.Discovery.CardWebsite
import SocialScraper.Discovery.ScrollOutcome
import SocialScraper.Enrichment.CacheTheorems
import SocialScraper.Enrichment.TimedCache
import SocialScraper.Selection
import SocialScraper.BusinessUrl
import SocialScraper.Validators
import SocialScraper.Reselect
import SocialScraper.BestCandidates
import SocialScraper.Deduplication
import SocialScraper.Social.NormalizeTwice
import SocialScraper.Social.Pairing
import SocialScraper.Social.Homepage
import SocialScraper.Social.Lookups
import SocialScraper.Social.Classifier
import SocialScraper.Social.CanonicalSlug
import SocialScraper.Social.SameProfile
import SocialScraper.Social.SearchFallback
import SocialScraper.Social.DuckDuckGo
import SocialScraper.Social.BatchMetrics
import SocialScraper.Social.BrowserFetch
import SocialScraper.Discovery.LeadDedup
import SocialScraper.Discovery.ScrollTime
import SocialScraper.Discovery.PoolContexts
import SocialScraper.Social.JsonLd
import SocialScraper.Social.Extraction
import SocialScraper.CanonicalRank
import SocialScraper.Pipeline.Stream
import SocialScraper.Pipeline.StreamSteps
import SocialScraper.Pipeline.Conveyor
import SocialScraper.Pipeline.StreamRefines
import SocialScraper.Pipeline.QueueDone
import SocialScraper.Pipeline.Delivery
import SocialScraper.Pipeline.Deadlock
import SocialScraper.Pipeline.Batch
import SocialScraper.Pipeline.Refinement
import SocialScraper.Pipeline.Cancellation
import SocialScraper.Pipeline.StageCounts
import SocialScraper.Pipeline.FinalLeads
import SocialScraper.Pipeline.Accounts
import SocialScraper.Pipeline.Orchestrator
import SocialScraper.Pipeline.RunResult
import SocialScraper.Pipeline.RunCleanup
import SocialScraper.Pipeline.HardCancel
import SocialScraper.Discovery.RunDiscovery
import SocialScraper.Pipeline.WholeRun
import SocialScraper.Enrichment.EnrichBatch
import SocialScraper.Network.DnsCache
import SocialScraper.Lib.Csv
import SocialScraper.Benchmark.Export
import SocialScraper.Core.PlaywrightLoop
import SocialScraper.SelectionMetrics
import SocialScraper.Lib.RoundRobin
import SocialScraper.Network.UserAgent
import SocialScraper.Pipeline.StreamEnds
import SocialScraper.Pipeline.Order
import SocialScraper.Enrichment.BatchCompletes
import SocialScraper.Pipeline.RunEnds
import SocialScraper.Social.AtRest
