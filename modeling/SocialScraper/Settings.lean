import SocialScraper.Python
/-!
# Settings

`app.config.settings`, with the defaults of `app.config.constants`. Pydantic
refuses a value outside its `Field` bounds, so the bounds are fields here and
an invalid `Settings` cannot be built. Only what the modelled code reads is
kept. Seconds are exact rationals.
-/

namespace SocialScraper

structure Settings where
  maxRetries : ℕ := 3
  retryBackoffBase : ℚ := 1 / 2
  retryMaxDelaySeconds : ℚ := 8
  retryJitterSeconds : ℚ := 1 / 2
  circuitBreakerFailureThreshold : ℕ := 5
  circuitBreakerRecoveryTimeoutSeconds : ℚ := 30
  circuitBreakerHalfOpenMaxCalls : ℕ := 1
  rateLimitRequestsPerSecond : ℚ := 10
  rateLimitBurst : ℕ := 20
  browserPoolSize : ℕ := 12
  enrichmentWorkerCount : ℕ := 12
  maxSearchWorkers : ℕ := 10
  confidenceScoreHigh : ℕ := 100
  confidenceScoreMedium : ℕ := 70
  confidenceScoreLow : ℕ := 40
  confidenceScoreNone : ℕ := 0
  retryBackoffBase_ge : 0 ≤ retryBackoffBase := by decide +kernel
  retryMaxDelaySeconds_ge : 0 ≤ retryMaxDelaySeconds := by decide +kernel
  retryJitterSeconds_ge : 0 ≤ retryJitterSeconds := by decide +kernel
  failureThreshold_ge : 1 ≤ circuitBreakerFailureThreshold := by decide +kernel
  recoveryTimeout_gt : 0 < circuitBreakerRecoveryTimeoutSeconds := by decide +kernel
  halfOpenMaxCalls_ge : 1 ≤ circuitBreakerHalfOpenMaxCalls := by decide +kernel
  requestsPerSecond_gt : 0 < rateLimitRequestsPerSecond := by decide +kernel
  burst_ge : 1 ≤ rateLimitBurst := by decide +kernel
  browserPoolSize_ge : 1 ≤ browserPoolSize := by decide +kernel
  enrichmentWorkerCount_ge : 1 ≤ enrichmentWorkerCount := by decide +kernel
  maxSearchWorkers_ge : 1 ≤ maxSearchWorkers := by decide +kernel

/-- `Settings()` where nothing is set in the environment. -/
def Settings.defaults : Settings := {}

end SocialScraper
