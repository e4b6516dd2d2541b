import TdvfFuzz.AgentConfig.Reconfigure
import TdvfFuzz.Audit.Comments
import TdvfFuzz.Audit.Completion
import TdvfFuzz.Audit.Identity
import TdvfFuzz.AuditFilter.KernelAudit
import TdvfFuzz.Campaign.LoopRefinement
import TdvfFuzz.Campaign.Reuse
import TdvfFuzz.Campaign.Starvation
import TdvfFuzz.Campaign.Submission
import TdvfFuzz.CrashSummary.Decoding
import TdvfFuzz.CrashSummary.Report
import TdvfFuzz.FastMatcher.Boundary
import TdvfFuzz.FastMatcher.Chains
import TdvfFuzz.FastMatcher.Isolation
import TdvfFuzz.FastMatcher.Truncated
import TdvfFuzz.Harness.Build
import TdvfFuzz.KaflStats.Corpus
import TdvfFuzz.KaflStats.Estimate
import TdvfFuzz.SeedStats.Cleaning
import TdvfFuzz.SmatchMatch.Agreement
import TdvfFuzz.SmatchMatch.Callers
import TdvfFuzz.SmatchMatch.Workdir
import TdvfFuzz.Smatcher.Aggregate
import TdvfFuzz.Smatcher.Database
import TdvfFuzz.Smatcher.RoundTrip
import TdvfFuzz.Smatcher.Spelling
import TdvfFuzz.Smatcher.Transferred
import TdvfFuzz.Stimulus.Coverage
import TdvfFuzz.SmatchMatch.FastListing
