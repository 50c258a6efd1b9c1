import ElasticTranslations.Pcc.Integrity
import ElasticTranslations.Pcc.SummaryOutcome
import ElasticTranslations.Pcc.UniqueTags
import ElasticTranslations.Pcc.PageSizes
import ElasticTranslations.Pcc.PromotionState
import ElasticTranslations.Pcc.PromotionKeys
import ElasticTranslations.Pcc.ReuseFrame
import ElasticTranslations.Pcc.LruRefinement
import ElasticTranslations.Pcc.LfuOrder
import ElasticTranslations.Pcc.HitKeepsLines
import ElasticTranslations.Pcc.EvictedAddress
import ElasticTranslations.Pcc.UsableSets
import ElasticTranslations.Hawkeye.Buckets
import ElasticTranslations.Epochs.LoadOrder
import ElasticTranslations.Epochs.Isolation
import ElasticTranslations.Epochs.SameHints
import ElasticTranslations.Epochs.WholeSamples
import ElasticTranslations.Scripts.SpteCoverage
import ElasticTranslations.Scripts.HintCoverage
import ElasticTranslations.Scripts.MissHistogram
import ElasticTranslations.Scripts.FaultConservation
import ElasticTranslations.Benchmarks.HashJoin
import ElasticTranslations.Benchmarks.Gups
import ElasticTranslations.Benchmarks.BTreeRuns
import ElasticTranslations.Benchmarks.BTreeRange
import ElasticTranslations.Benchmarks.BTreeLookups
import ElasticTranslations.Gapbs.BfsBenchmark
import ElasticTranslations.Gapbs.Serialized
import ElasticTranslations.Gapbs.EdgeText
import ElasticTranslations.Gapbs.ParallelBuilder
import ElasticTranslations.Gapbs.ParallelSearch
