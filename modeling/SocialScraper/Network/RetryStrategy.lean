import SocialScraper.Settings
/-!
# The retry engine

`app.network.retry_strategy`. The loop of `RetryPolicy.execute` suspends in
the wrapped function and in its backoff sleep; `afterFailure` is what it does
in between.
-/

namespace SocialScraper

/-- The exceptions that can come out of one attempt, or of a whole request. -/
inductive NetworkError where
  | networkConnectionError | networkTimeout | circuitOpen | retryExceeded
  /-- Any other `Exception`. -/
  | other
deriving DecidableEq

structure RetryPolicy where
  maxAttempts : ℕ := 3
  baseDelay : ℚ := 1 / 2
  maxDelay : ℚ := 8
  jitter : ℚ := 1 / 2
  /-- Whether the `except self.retryable_exceptions` clause catches the exception. -/
  retryable : NetworkError → Bool := fun _ => true

/-- `random.uniform(a, b)` can return `x`. -/
def Uniform (a b x : ℚ) : Prop := min a b ≤ x ∧ x ≤ max a b

instance (a b x : ℚ) : Decidable (Uniform a b x) := inferInstanceAs (Decidable (_ ∧ _))

namespace RetryPolicy

/-- `compute_delay`, for the jitter that `random.uniform` drew. -/
def computeDelay (p : RetryPolicy) (attempt : ℕ) (jitter : ℚ) : ℚ :=
  min (p.baseDelay * 2 ^ (attempt - 1)) p.maxDelay + jitter

/-- `2 ** (attempt - 1)` is no `float` any more: `compute_delay` raises `OverflowError`. -/
def delayOverflows (attempt : ℕ) : Bool := 1024 ≤ attempt - 1

/-- What `execute` does with an exception of an attempt. -/
inductive Next where
  /-- Not caught. -/
  | propagate
  /-- The last attempt: `RetryExceeded`. -/
  | exceeded
  /-- `on_retry`, then sleep before the next attempt. -/
  | backoff
deriving DecidableEq

def afterFailure (p : RetryPolicy) (attempt : ℕ) (e : NetworkError) : Next :=
  if p.retryable e then if attempt ≥ p.maxAttempts then .exceeded else .backoff
  else .propagate

end RetryPolicy

/-- `default_retry_policy`. -/
def defaultRetryPolicy (settings : Settings) (retryable : NetworkError → Bool) : RetryPolicy where
  maxAttempts := settings.maxRetries + 1
  baseDelay := settings.retryBackoffBase
  maxDelay := settings.retryMaxDelaySeconds
  jitter := settings.retryJitterSeconds
  retryable := retryable

end SocialScraper
