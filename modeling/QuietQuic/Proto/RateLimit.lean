import Mathlib.Algebra.Order.Ring.Rat
import QuietQuic.Lib.AssocMap
import QuietQuic.Proto.Outcome

/-!
# The pre-filter's rate limiter

Model of `proto/src/ratelimit.rs`, with `f64` as exact rationals. The per-source buckets are
threaded on a doubly linked list through the map's values (`older`, `newer`), with `lruHead` the
least and `lruTail` the most recently touched source. An `expect` that fails is `none`: the
process ends there.
-/

namespace QuietQuic.Proto

open QuietQuic.Lib

/-- `TokenBucket`. -/
structure TokenBucket where
  capacity : ℚ
  refillPerSec : ℚ
  tokens : ℚ
  lastUpdate : Option Instant
  deriving DecidableEq

/-- `TokenBucket::new`: a full bucket, whose clock starts at its first use. -/
def TokenBucket.new (capacity refillPerSec : ℚ) : TokenBucket :=
  ⟨capacity, refillPerSec, capacity, none⟩

/-- `now.saturating_duration_since(last).as_secs_f64()`. -/
def elapsedSecs (now last : Instant) : ℚ := ((now - last : Nat) : ℚ) / 1000000000

/-- The refill of `TokenBucket::try_take`. -/
def TokenBucket.refill (b : TokenBucket) (now : Instant) : TokenBucket :=
  match b.lastUpdate with
  | none => { b with lastUpdate := some now }
  | some last =>
    let elapsed := elapsedSecs now last
    if 0 < elapsed then
      { b with tokens := min (b.tokens + elapsed * b.refillPerSec) b.capacity, lastUpdate := some now }
    else b

/-- `TokenBucket::try_take`: refill, then take one token if there is one. -/
def TokenBucket.tryTake (b : TokenBucket) (now : Instant) : Bool × TokenBucket :=
  let b := b.refill now
  if 1 ≤ b.tokens then (true, { b with tokens := b.tokens - 1 }) else (false, b)

/-- `SourceEntry`. -/
structure SourceEntry where
  bucket : TokenBucket
  older : Option IpAddr
  newer : Option IpAddr
  deriving DecidableEq

/-- `RateLimiter`. -/
structure RateLimiter where
  global : TokenBucket
  perSource : AMap IpAddr SourceEntry
  lruHead : Option IpAddr
  lruTail : Option IpAddr
  perSourceCapacity : ℚ
  perSourceRefill : ℚ
  maxTracked : Nat

namespace RateLimiter

/-- `RateLimiter::with_params`. -/
def withParams (globalCapacity globalRefill perSourceCapacity perSourceRefill : ℚ)
    (maxTracked : Nat) : RateLimiter where
  global := TokenBucket.new globalCapacity globalRefill
  perSource := ∅
  lruHead := none
  lruTail := none
  perSourceCapacity := perSourceCapacity
  perSourceRefill := perSourceRefill
  maxTracked := maxTracked

/-- `DEFAULT_PER_SOURCE_CAPACITY`. -/
def DEFAULT_PER_SOURCE_CAPACITY : ℚ := 32

/-- `DEFAULT_PER_SOURCE_REFILL`. -/
def DEFAULT_PER_SOURCE_REFILL : ℚ := 8

/-- `DEFAULT_GLOBAL_CAPACITY`. -/
def DEFAULT_GLOBAL_CAPACITY : ℚ := 2048

/-- `DEFAULT_GLOBAL_REFILL`. -/
def DEFAULT_GLOBAL_REFILL : ℚ := 512

/-- `MAX_TRACKED_SOURCES`. -/
def MAX_TRACKED_SOURCES : Nat := 4096

/-- `RateLimiter::new`. -/
def new : RateLimiter :=
  withParams DEFAULT_GLOBAL_CAPACITY DEFAULT_GLOBAL_REFILL DEFAULT_PER_SOURCE_CAPACITY
    DEFAULT_PER_SOURCE_REFILL MAX_TRACKED_SOURCES

/-- Update the entry of `src` (`get_mut(..).expect(..)`). -/
def updateEntry (rl : RateLimiter) (src : IpAddr) (f : SourceEntry → SourceEntry) :
    Option RateLimiter :=
  (rl.perSource.lookup src).map fun e => { rl with perSource := rl.perSource.insert src (f e) }

/-- `detach`: unlink `src` and join its neighbours. -/
def detach (rl : RateLimiter) (src : IpAddr) : Option RateLimiter := do
  let entry ← rl.perSource.lookup src
  let rl ← match entry.older with
    | some ip => rl.updateEntry ip fun e => { e with newer := entry.newer }
    | none => some { rl with lruHead := entry.newer }
  let rl ← match entry.newer with
    | some ip => rl.updateEntry ip fun e => { e with older := entry.older }
    | none => some { rl with lruTail := entry.older }
  rl.updateEntry src fun e => { e with older := none, newer := none }

/-- `attach_newest`: link `src` at the tail. -/
def attachNewest (rl : RateLimiter) (src : IpAddr) : Option RateLimiter := do
  let oldTail := rl.lruTail
  let rl ← rl.updateEntry src fun e => { e with older := oldTail, newer := none }
  let rl ← match oldTail with
    | some tail => rl.updateEntry tail fun e => { e with newer := some src }
    | none => some { rl with lruHead := some src }
  some { rl with lruTail := some src }

/-- The eviction of `touch_source`: at capacity, drop the least recently touched source. -/
def evict (rl : RateLimiter) : Option RateLimiter :=
  if max rl.maxTracked 1 ≤ rl.perSource.keys.length then
    match rl.lruHead with
    | some oldest =>
      (rl.detach oldest).map fun rl => { rl with perSource := rl.perSource.erase oldest }
    | none => some rl
  else some rl

/-- `touch_source`: make `src` the most recently touched source, with its bucket. -/
def touchSource (rl : RateLimiter) (src : IpAddr) : Option RateLimiter := do
  let rl ←
    if src ∈ rl.perSource then rl.detach src
    else
      rl.evict.map fun rl =>
        let bucket := TokenBucket.new rl.perSourceCapacity rl.perSourceRefill
        { rl with perSource := rl.perSource.insert src ⟨bucket, none, none⟩ }
  rl.attachNewest src

/-- `check`: the global bucket first, then the source's own. -/
def check (rl : RateLimiter) (src : IpAddr) (now : Instant) : Option (Bool × RateLimiter) :=
  let (ok, global) := rl.global.tryTake now
  let rl := { rl with global := global }
  if ok then do
    let rl ← rl.touchSource src
    let entry ← rl.perSource.lookup src
    let (ok, bucket) := entry.bucket.tryTake now
    some (ok, { rl with perSource := rl.perSource.insert src { entry with bucket := bucket } })
  else some (false, rl)

end RateLimiter

end QuietQuic.Proto
