import Mathlib.Tactic.Linarith
import Mathlib.Algebra.Order.Floor.Semiring
import Mathlib.Data.Rat.Floor
import QuietQuic.Proto.Lru

/-!
# The limiter's budgets

A bucket consulted at any instants, in any order, pays out at most its capacity and what it
refills while the largest instant it has seen grows (`takes_within`). Each bucket of the limiter
sees exactly the checks that consult it, so the bound holds of the global bucket over any part of
a run, and of a source's between two creations of its entry.

* `checks_within_budget`: the two bounds, over every run of checks.
* `debits_iff_sources_have_tokens`: when a check that fails is free. A check denied by its source's
  own bucket has already taken a global token.
-/

namespace QuietQuic.Proto

open QuietQuic.Lib

/-! ## One bucket -/

namespace TokenBucket

/-- A sequence of `try_take` calls. -/
def takeAll (b : TokenBucket) : List Instant → List Bool × TokenBucket
  | [] => ([], b)
  | now :: rest => ((b.tryTake now).1 :: ((b.tryTake now).2.takeAll rest).1,
      ((b.tryTake now).2.takeAll rest).2)

/-- The growth, in seconds, of the largest instant seen: from that of `before`, or from the first
of `part` where there was none, to that of `before` and `part`. -/
def growth (before part : List Instant) : ℚ :=
  elapsedSecs ((before ++ part).max?.getD 0) ((before.max?.or part.head?).getD 0)

theorem takeAll_append (b : TokenBucket) (xs ys : List Instant) :
    b.takeAll (xs ++ ys) =
      ((b.takeAll xs).1 ++ ((b.takeAll xs).2.takeAll ys).1, ((b.takeAll xs).2.takeAll ys).2) := by
  induction xs generalizing b with
  | nil => rfl
  | cons now xs ih => simp only [List.cons_append, takeAll, ih]

theorem elapsedSecs_nonneg (now last : Instant) : 0 ≤ elapsedSecs now last :=
  div_nonneg (Nat.cast_nonneg _) (by norm_num)

theorem elapsedSecs_pos {now last : Instant} : 0 < elapsedSecs now last ↔ last < now := by
  unfold elapsedSecs
  rw [lt_div_iff₀ (by norm_num), zero_mul, Nat.cast_pos]
  exact Nat.sub_pos_iff_lt

/-- Time adds up while the clock advances. -/
theorem elapsedSecs_add {a b c : Instant} (hab : a ≤ b) (hbc : b ≤ c) :
    elapsedSecs c a = elapsedSecs c b + elapsedSecs b a := by
  unfold elapsedSecs
  rw [← add_div, ← Nat.cast_add, Nat.sub_add_sub_cancel hbc hab]

theorem refill_of_none {b : TokenBucket} (hlast : b.lastUpdate = none) (now : Instant) :
    b.refill now = { b with lastUpdate := some now } := by
  unfold TokenBucket.refill
  rw [hlast]

theorem refill_of_le {b : TokenBucket} {last now : Instant} (hlast : b.lastUpdate = some last)
    (h : now ≤ last) : b.refill now = b := by
  unfold TokenBucket.refill
  rw [hlast]
  exact if_neg fun hpos => absurd (elapsedSecs_pos.mp hpos) (Nat.not_lt.mpr h)

theorem refill_of_lt {b : TokenBucket} {last now : Instant} (hlast : b.lastUpdate = some last)
    (h : last < now) :
    b.refill now =
      { b with
        tokens := min (b.tokens + elapsedSecs now last * b.refillPerSec) b.capacity
        lastUpdate := some now } := by
  unfold TokenBucket.refill
  rw [hlast]
  exact if_pos (elapsedSecs_pos.mpr h)

/-- A bucket of this capacity and refill, filled somewhere between empty and full. -/
structure Fits (b : TokenBucket) (capacity refillPerSec : ℚ) : Prop where
  cap : b.capacity = capacity
  rate : b.refillPerSec = refillPerSec
  nonneg : 0 ≤ b.tokens
  full : b.tokens ≤ capacity

theorem fits_new {capacity refillPerSec : ℚ} (h : 0 ≤ capacity) :
    (TokenBucket.new capacity refillPerSec).Fits capacity refillPerSec :=
  ⟨rfl, rfl, h, le_refl _⟩

/-- **The refill**: the clock becomes the larger instant, and the tokens grow by at most what that
much time pays. -/
theorem Fits.refill_spec {b : TokenBucket} {capacity refillPerSec : ℚ}
    (h : b.Fits capacity refillPerSec) (hcap : 0 ≤ capacity) (hrefill : 0 ≤ refillPerSec)
    (now : Instant) :
    (b.refill now).Fits capacity refillPerSec ∧
      (b.refill now).lastUpdate = some (max (b.lastUpdate.getD now) now) ∧
      (b.refill now).tokens ≤ b.tokens +
        refillPerSec * elapsedSecs (max (b.lastUpdate.getD now) now) (b.lastUpdate.getD now) := by
  have hpaid (last : Instant) : 0 ≤ elapsedSecs now last * refillPerSec :=
    mul_nonneg (elapsedSecs_nonneg now last) hrefill
  have hzero (last : Instant) : 0 ≤ refillPerSec * elapsedSecs last last :=
    mul_nonneg hrefill (elapsedSecs_nonneg last last)
  cases hlast : b.lastUpdate with
  | none =>
    rw [refill_of_none hlast, Option.getD_none, max_self]
    exact ⟨⟨h.cap, h.rate, h.nonneg, h.full⟩, rfl, le_add_of_nonneg_right (hzero now)⟩
  | some last =>
    rw [Option.getD_some]
    rcases Nat.lt_or_ge last now with hlt | hge
    · rw [refill_of_lt hlast hlt, max_eq_right hlt.le, h.rate, h.cap]
      refine ⟨⟨rfl, rfl, ?_, min_le_right _ _⟩, rfl, ?_⟩
      · exact le_min (add_nonneg h.nonneg (hpaid last)) hcap
      · rw [mul_comm refillPerSec]
        exact min_le_left _ _
    · rw [refill_of_le hlast hge, max_eq_left hge]
      exact ⟨h, hlast, le_add_of_nonneg_right (hzero last)⟩

/-- **One `try_take`**: the token it takes was there, or was paid for by the refill. -/
theorem Fits.tryTake_spec {b : TokenBucket} {capacity refillPerSec : ℚ}
    (h : b.Fits capacity refillPerSec) (hcap : 0 ≤ capacity) (hrefill : 0 ≤ refillPerSec)
    (now : Instant) :
    (b.tryTake now).2.Fits capacity refillPerSec ∧
      (b.tryTake now).2.lastUpdate = some (max (b.lastUpdate.getD now) now) ∧
      (if (b.tryTake now).1 then 1 else 0) + (b.tryTake now).2.tokens ≤ b.tokens +
        refillPerSec * elapsedSecs (max (b.lastUpdate.getD now) now) (b.lastUpdate.getD now) := by
  obtain ⟨hfits, hclock, htokens⟩ := h.refill_spec hcap hrefill now
  unfold tryTake
  dsimp only
  split
  · rename_i hone
    refine ⟨⟨hfits.cap, hfits.rate, sub_nonneg.mpr hone, ?_⟩, hclock, ?_⟩
    · have hfull := hfits.full
      dsimp only
      linarith
    · simpa using htokens
  · exact ⟨hfits, hclock, by simpa using htokens⟩

/-- The instants of `takeAll`, where its clock stands. -/
def clockOf (last : Option Instant) (part : List Instant) : Option Instant :=
  part.foldl (fun last now => some (max (last.getD now) now)) last

theorem clockOf_some (last : Instant) (part : List Instant) :
    clockOf (some last) part = some (part.foldl max last) := by
  induction part generalizing last with
  | nil => rfl
  | cons now part ih => exact ih _

theorem clockOf_none (part : List Instant) : clockOf none part = part.max? := by
  cases part with
  | nil => rfl
  | cons now part =>
    rw [List.max?_cons', ← clockOf_some]
    unfold clockOf
    rw [List.foldl_cons, Option.getD_none, max_self]

theorem clockOf_append (last : Option Instant) (xs ys : List Instant) :
    clockOf last (xs ++ ys) = clockOf (clockOf last xs) ys := List.foldl_append

/-- **A sequence of calls** from a bucket whose clock stands at `c`: what is taken was there, or
was paid for by the growth of the clock. -/
theorem Fits.takeAll_spec {b : TokenBucket} {capacity refillPerSec : ℚ}
    (h : b.Fits capacity refillPerSec) (hcap : 0 ≤ capacity) (hrefill : 0 ≤ refillPerSec)
    (part : List Instant) :
    (b.takeAll part).2.Fits capacity refillPerSec ∧
      (b.takeAll part).2.lastUpdate = clockOf b.lastUpdate part ∧
      ((b.takeAll part).1.count true : ℚ) + (b.takeAll part).2.tokens ≤ b.tokens +
        refillPerSec * elapsedSecs ((clockOf b.lastUpdate part).getD 0)
          ((b.lastUpdate.or part.head?).getD 0) := by
  induction part generalizing b with
  | nil => exact ⟨h, rfl, by simp [takeAll, clockOf, elapsedSecs]⟩
  | cons now part ih =>
    obtain ⟨hfits, hclock, htake⟩ := h.tryTake_spec hcap hrefill now
    obtain ⟨hfits', hclock', hrest⟩ := ih hfits
    set start := b.lastUpdate.getD now
    set next := max start now
    have hstep : clockOf b.lastUpdate (now :: part) = clockOf (some next) part := rfl
    have hstart : (b.lastUpdate.or (now :: part).head?).getD 0 = start := by
      cases hb : b.lastUpdate <;> simp [start, hb]
    rw [hclock, clockOf_some] at hrest hclock'
    rw [hstep, hstart, clockOf_some]
    refine ⟨hfits', hclock', ?_⟩
    have hle : next ≤ part.foldl max next := by
      rw [List.foldl_max]
      exact le_max_left _ _
    have hadd := elapsedSecs_add (le_max_left start now) hle
    simp only [Option.some_or, Option.getD_some] at hrest ⊢
    rw [hadd, mul_add]
    have hcount : ((b.takeAll (now :: part)).1.count true : ℚ) =
        (if (b.tryTake now).1 then 1 else 0) + ((b.tryTake now).2.takeAll part).1.count true := by
      cases hok : (b.tryTake now).1 <;> simp [takeAll, hok, add_comm]
    rw [hcount]
    change _ + ((b.tryTake now).2.takeAll part).2.tokens ≤ _
    linarith

/-- **What a bucket pays out**: over any part of its calls, at most its capacity and the refill of
the time its clock advances. -/
theorem takes_within {capacity refillPerSec : ℚ} (hcap : 0 ≤ capacity) (hrefill : 0 ≤ refillPerSec)
    (before part : List Instant) :
    ((((TokenBucket.new capacity refillPerSec).takeAll before).2.takeAll part).1.count true : ℚ) ≤
      capacity + refillPerSec * growth before part := by
  obtain ⟨hfits, hclock, -⟩ := (fits_new hcap).takeAll_spec hcap hrefill before
  obtain ⟨hfits', -, hpart⟩ := hfits.takeAll_spec hcap hrefill part
  rw [hclock] at hpart
  change _ ≤ _ + refillPerSec * elapsedSecs ((clockOf (clockOf none before) part).getD 0)
    (((clockOf none before).or part.head?).getD 0) at hpart
  rw [← clockOf_append, clockOf_none, clockOf_none] at hpart
  have hnonneg := hfits'.nonneg
  have hfull := hfits.full
  unfold growth
  linarith

end TokenBucket

/-! ## Runs of checks -/

/-- A `check` that was made, with what the limiter did: `passed` when the global bucket had a
token, `created` when the source then got a new entry, and `debit`, the global tokens it cost. -/
structure Checked where
  src : IpAddr
  now : Instant
  passed : Bool
  created : Bool
  debit : ℚ
  ok : Bool
  deriving DecidableEq

namespace RateLimiter

/-- The bucket that a check of `src` consults after the global one. -/
def sourceBucket (rl : RateLimiter) (src : IpAddr) : TokenBucket :=
  (rl.bucketOf src).getD (TokenBucket.new rl.perSourceCapacity rl.perSourceRefill)

/-- The limiter after its global bucket was asked. -/
def askGlobal (rl : RateLimiter) (now : Instant) : RateLimiter :=
  { rl with global := (rl.global.tryTake now).2 }

/-- `check`, with its record. -/
def logCheck (rl : RateLimiter) (src : IpAddr) (now : Instant) : Option (Checked × RateLimiter) :=
  (rl.check src now).map fun r =>
    ({ src := src
       now := now
       passed := (rl.global.tryTake now).1
       created := (rl.global.tryTake now).1 && decide (src ∉ rl.perSource)
       debit := (rl.global.refill now).tokens - r.2.global.tokens
       ok := r.1 }, r.2)

/-- A run of checks. -/
def checkAll (rl : RateLimiter) : List (IpAddr × Instant) → Option (List Checked × RateLimiter)
  | [] => some ([], rl)
  | (src, now) :: calls =>
    (rl.logCheck src now).bind fun c => (c.2.checkAll calls).map fun r => (c.1 :: r.1, r.2)

/-- **A check the global bucket denies** touches nothing else. -/
theorem check_denied {rl : RateLimiter} {src : IpAddr} {now : Instant}
    (h : (rl.global.tryTake now).1 = false) : rl.check src now = some (false, rl.askGlobal now) := by
  unfold check askGlobal
  simp only [h, Bool.false_eq_true, if_false]

/-- **A check the global bucket lets through** is a touch, and a take from the source's bucket. -/
theorem check_passed {rl : RateLimiter} {l : List IpAddr} (horder : rl.Order l) (src : IpAddr)
    {now : Instant} (h : (rl.global.tryTake now).1 = true) :
    ∃ rl', rl.check src now = some (((rl.sourceBucket src).tryTake now).1, rl') ∧
      rl'.Order (touch rl.cap src l) ∧ SameBudget (rl.askGlobal now) rl' ∧
      ∀ a, rl'.bucketOf a =
        if a = src then some ((rl.sourceBucket src).tryTake now).2
        else if a ∈ touch rl.cap src l then rl.bucketOf a else none := by
  have horder' : (rl.askGlobal now).Order l := ⟨horder.chain, horder.keys⟩
  obtain ⟨rl', heq, hord, hsame, hbucket⟩ :=
    touchWith_spec horder' src fun b => (b.tryTake now).2
  obtain ⟨rl₁, htouch, -, -, hbucket₁⟩ := touchSource_spec horder' src
  refine ⟨rl', ?_, hord, hsame, hbucket⟩
  have hsrc := hbucket₁ src
  rw [if_pos rfl] at hsrc
  obtain ⟨e, he, heb⟩ := Option.map_eq_some_iff.mp hsrc
  unfold touchWith at heq
  rw [htouch, Option.bind_some, updateEntry, he, Option.map_some, Option.some.injEq] at heq
  unfold check
  simp only [h, if_true]
  change (rl.askGlobal now).touchSource src >>= _ = _
  rw [htouch]
  simp only [Option.bind_eq_bind, Option.bind_some, he]
  rw [heq, heb]
  rfl

/-- The limiter's LRU list is in order. -/
def Ordered (rl : RateLimiter) : Prop := ∃ l, rl.Order l

/-- What one check does. -/
structure CheckSpec (rl : RateLimiter) (src : IpAddr) (now : Instant) (c : Checked)
    (rl' : RateLimiter) : Prop where
  ordered : rl'.Ordered
  src_eq : c.src = src
  now_eq : c.now = now
  passed_eq : c.passed = (rl.global.tryTake now).1
  created_eq : c.created = (c.passed && decide (rl.bucketOf src = none))
  ok_eq : c.ok = (c.passed && ((rl.sourceBucket src).tryTake now).1)
  debit_eq : c.debit = if c.passed then 1 else 0
  global : rl'.global = (rl.global.tryTake now).2
  capacity : rl'.perSourceCapacity = rl.perSourceCapacity
  refill : rl'.perSourceRefill = rl.perSourceRefill
  source : rl'.bucketOf src =
    if c.passed then some ((rl.sourceBucket src).tryTake now).2 else rl.bucketOf src
  others : ∀ a, a ≠ src → rl'.bucketOf a = rl.bucketOf a ∨ rl'.bucketOf a = none

/-- A take costs a token, or nothing. -/
theorem refill_sub_tryTake (b : TokenBucket) (now : Instant) :
    (b.refill now).tokens - (b.tryTake now).2.tokens = if (b.tryTake now).1 then 1 else 0 := by
  unfold TokenBucket.tryTake
  dsimp only
  split <;> simp

theorem logCheck_spec {rl : RateLimiter} (h : rl.Ordered) (src : IpAddr) (now : Instant) :
    ∃ c rl', rl.logCheck src now = some (c, rl') ∧ CheckSpec rl src now c rl' := by
  obtain ⟨l, horder⟩ := h
  have hnew : decide (src ∉ rl.perSource) = decide (rl.bucketOf src = none) :=
    decide_eq_decide.mpr (not_iff_comm.mp mem_perSource.symm)
  unfold logCheck
  cases hpass : (rl.global.tryTake now).1 with
  | false =>
    rw [check_denied hpass]
    exact ⟨_, _, rfl, ⟨l, horder.chain, horder.keys⟩, rfl, rfl, hpass.symm, rfl, rfl,
      (refill_sub_tryTake _ _).trans (by rw [hpass]), rfl, rfl, rfl, rfl, fun _ _ => .inl rfl⟩
  | true =>
    obtain ⟨rl', heq, hord, hsame, hbucket⟩ := check_passed horder src hpass
    rw [heq]
    have hglobal : rl'.global = (rl.global.tryTake now).2 := hsame.global
    refine ⟨_, rl', rfl, ⟨_, hord⟩, rfl, rfl, hpass.symm, ?_, ?_, ?_, hglobal, hsame.capacity,
      hsame.refill, ?_, fun a ha => ?_⟩
    · simp only [Bool.true_and, hnew]
    · simp
    · dsimp only
      rw [hglobal, refill_sub_tryTake, hpass]
    · rw [hbucket, if_pos rfl]
      rfl
    · rw [hbucket, if_neg ha]
      split
      · exact .inl rfl
      · exact .inr rfl

/-- A run of checks, one after the other. -/
inductive CheckRun : RateLimiter → List Checked → RateLimiter → Prop
  | nil {rl} (h : rl.Ordered) : CheckRun rl [] rl
  | cons {rl src now c rl₁ log rl'} (h : CheckSpec rl src now c rl₁) (rest : CheckRun rl₁ log rl') :
      CheckRun rl (c :: log) rl'

/-- A run of one more check is that check, and the run from where it leaves the limiter. -/
theorem checkAll_cons_iff {rl rl' : RateLimiter} {src : IpAddr} {now : Instant}
    {calls : List (IpAddr × Instant)} {log : List Checked} :
    rl.checkAll ((src, now) :: calls) = some (log, rl') ↔
      ∃ c rl₁ rest, rl.logCheck src now = some (c, rl₁) ∧
        rl₁.checkAll calls = some (rest, rl') ∧ c :: rest = log := by
  rw [checkAll]
  constructor
  · intro hrun
    obtain ⟨⟨c, rl₁⟩, hcheck, hrun⟩ := Option.bind_eq_some_iff.mp hrun
    obtain ⟨⟨rest, rl₂⟩, hrest, heq⟩ := Option.map_eq_some_iff.mp hrun
    obtain ⟨rfl, rfl⟩ : c :: rest = log ∧ rl₂ = rl' := by simpa using heq
    exact ⟨c, rl₁, rest, hcheck, hrest, rfl⟩
  · rintro ⟨c, rl₁, rest, hcheck, hrest, rfl⟩
    rw [hcheck, Option.bind_some, hrest]
    rfl

theorem checkAll_run {rl rl' : RateLimiter} (h : rl.Ordered) {calls : List (IpAddr × Instant)}
    {log : List Checked} (hrun : rl.checkAll calls = some (log, rl')) : CheckRun rl log rl' := by
  induction calls generalizing rl log with
  | nil =>
    obtain ⟨rfl, rfl⟩ : [] = log ∧ rl = rl' := by simpa [checkAll] using hrun
    exact .nil h
  | cons call calls ih =>
    obtain ⟨c, rl₁, rest, hcheck, hrest, rfl⟩ := checkAll_cons_iff.mp hrun
    obtain ⟨c', rl₁', hcheck', hspec⟩ := logCheck_spec h call.1 call.2
    obtain ⟨rfl, rfl⟩ : c = c' ∧ rl₁ = rl₁' := by simpa using hcheck.symm.trans hcheck'
    exact .cons hspec (ih hspec.ordered hrest)

/-- No `expect` of a run fails, and its record names its calls. -/
theorem checkAll_total {rl : RateLimiter} (h : rl.Ordered) (calls : List (IpAddr × Instant)) :
    ∃ log rl', rl.checkAll calls = some (log, rl') ∧ log.map (fun c => (c.src, c.now)) = calls := by
  induction calls generalizing rl with
  | nil => exact ⟨[], rl, rfl, rfl⟩
  | cons call calls ih =>
    obtain ⟨c, rl₁, hcheck, hspec⟩ := logCheck_spec h call.1 call.2
    obtain ⟨log, rl', hrun, hcalls⟩ := ih hspec.ordered
    refine ⟨c :: log, rl', checkAll_cons_iff.mpr ⟨c, rl₁, log, hcheck, hrun, rfl⟩, ?_⟩
    rw [List.map_cons, hcalls, hspec.src_eq, hspec.now_eq]

/-- A part of the record is the record of a part. -/
theorem checkAll_split {rl rl' : RateLimiter} {calls : List (IpAddr × Instant)}
    {log₁ log₂ : List Checked} (hrun : rl.checkAll calls = some (log₁ ++ log₂, rl')) :
    ∃ calls₁ calls₂ mid, calls = calls₁ ++ calls₂ ∧ rl.checkAll calls₁ = some (log₁, mid) ∧
      mid.checkAll calls₂ = some (log₂, rl') := by
  induction log₁ generalizing rl calls with
  | nil => exact ⟨[], calls, rl, rfl, rfl, hrun⟩
  | cons c log₁ ih =>
    cases calls with
    | nil => simp [checkAll] at hrun
    | cons call calls =>
      obtain ⟨c', rl₁, rest, hcheck, hrest, heq⟩ := checkAll_cons_iff.mp hrun
      obtain ⟨rfl, rfl⟩ := List.cons.inj heq
      obtain ⟨calls₁, calls₂, mid, rfl, hrun₁, hrun₂⟩ := ih hrest
      refine ⟨call :: calls₁, calls₂, mid, rfl, ?_, hrun₂⟩
      exact checkAll_cons_iff.mpr ⟨c', rl₁, log₁, hcheck, hrun₁, rfl⟩

theorem ordered_withParams (globalCapacity globalRefill perSourceCapacity perSourceRefill : ℚ)
    (maxTracked : Nat) :
    (withParams globalCapacity globalRefill perSourceCapacity perSourceRefill maxTracked).Ordered :=
  ⟨[], order_withParams ..⟩

/-- The checks that consult the bucket of `src`. -/
def consults (src : IpAddr) (log : List Checked) : List Checked :=
  log.filter fun c => c.src = src && c.passed

namespace CheckRun

variable {rl rl' : RateLimiter} {log : List Checked}

/-- **The global bucket** is consulted by every check, and by nothing else. -/
theorem global (hrun : CheckRun rl log rl') :
    log.map Checked.passed = (rl.global.takeAll (log.map Checked.now)).1 ∧
      rl'.global = (rl.global.takeAll (log.map Checked.now)).2 := by
  induction hrun with
  | nil => exact ⟨rfl, rfl⟩
  | cons hspec rest ih =>
    obtain ⟨hflags, hbucket⟩ := ih
    simp only [List.map_cons, TokenBucket.takeAll]
    rw [hspec.now_eq, hspec.passed_eq, ← hspec.global]
    exact ⟨congrArg _ hflags, hbucket⟩

theorem kept (hrun : CheckRun rl log rl') :
    rl'.Ordered ∧ rl'.perSourceCapacity = rl.perSourceCapacity ∧
      rl'.perSourceRefill = rl.perSourceRefill := by
  induction hrun with
  | nil h => exact ⟨h, rfl, rfl⟩
  | cons hspec rest ih =>
    obtain ⟨hord, hcap, href⟩ := ih
    exact ⟨hord, hcap.trans hspec.capacity, href.trans hspec.refill⟩

/-- A check that returns true was let through. -/
theorem ok (hrun : CheckRun rl log rl') :
    ∀ c ∈ log, c.ok = true → c.passed = true := by
  induction hrun with
  | nil => simp
  | cons hspec rest ih =>
    intro d hd hok
    rcases List.mem_cons.mp hd with rfl | hd
    · rw [hspec.ok_eq, Bool.and_eq_true] at hok
      exact hok.1
    · exact ih d hd hok

/-- **A source's bucket**, as long as no new one is created: without one no check consults it,
and the one there is sees exactly the checks that consult it. -/
theorem source (hrun : CheckRun rl log rl')
    (src : IpAddr) (hkept : ∀ c ∈ log, c.src = src → c.created = false) :
    (consults src log).map Checked.ok =
      match rl.bucketOf src with
      | none => []
      | some b => (b.takeAll ((consults src log).map Checked.now)).1 := by
  induction hrun with
  | nil => split <;> rfl
  | @cons rl src' now c rl₁ log rl' hspec rest ih =>
    have ih := ih fun d hd => hkept d (List.mem_cons_of_mem _ hd)
    have hcreated := hkept c List.mem_cons_self
    rw [hspec.src_eq, hspec.created_eq] at hcreated
    by_cases hsrc : src' = src
    · subst hsrc
      have hsource := hspec.source
      cases hpass : c.passed with
      | false =>
        rw [hpass] at hsource
        simp only [Bool.false_eq_true, if_false] at hsource
        rw [hsource] at ih
        simpa [consults, hpass] using ih
      | true =>
        simp only [hpass, Bool.true_and, decide_eq_false_iff_not] at hcreated
        obtain ⟨b, hb⟩ := Option.ne_none_iff_exists'.mp (hcreated trivial)
        have hbucket : rl.sourceBucket src' = b := by simp [sourceBucket, hb]
        rw [hpass, if_pos rfl, hbucket] at hsource
        rw [hsource] at ih
        have hok := hspec.ok_eq
        rw [hpass, Bool.true_and, hbucket] at hok
        have hcons : consults src' (c :: log) = c :: consults src' log := by
          simp [consults, hspec.src_eq, hpass]
        rw [hb, hcons, List.map_cons, List.map_cons, hok, hspec.now_eq, ih]
        rfl
    · have hcons : consults src (c :: log) = consults src log := by
        simp [consults, hspec.src_eq, hsrc]
      rw [hcons]
      rcases hspec.others src (Ne.symm hsrc) with heq | hgone
      · rw [← heq]
        exact ih
      · -- evicted, and not created again: nothing consults it any more
        rw [hgone] at ih
        have hnil : consults src log = [] := List.map_eq_nil_iff.mp ih
        rw [hnil]
        cases rl.bucketOf src <;> rfl

/-- From its creation on, a source's bucket is a new one that sees the checks that consult it. -/
theorem source_created {c : Checked} (hrun : CheckRun rl (c :: log) rl') (hcreated : c.created = true)
    (hkept : ∀ d ∈ log, d.src = c.src → d.created = false) :
    (consults c.src (c :: log)).map Checked.ok =
      ((TokenBucket.new rl.perSourceCapacity rl.perSourceRefill).takeAll
        ((consults c.src (c :: log)).map Checked.now)).1 := by
  obtain _ | @⟨_, src, now, _, rl₁, _, _, hspec, hrest⟩ := hrun
  rw [hspec.created_eq, Bool.and_eq_true, decide_eq_true_eq] at hcreated
  obtain ⟨hpass, hnone⟩ := hcreated
  have hbucket : rl.sourceBucket src = TokenBucket.new rl.perSourceCapacity rl.perSourceRefill := by
    simp [sourceBucket, hnone]
  have hsource := hspec.source
  have hok := hspec.ok_eq
  rw [hpass, Bool.true_and, hbucket] at hok
  rw [hpass, if_pos rfl, hbucket] at hsource
  have hafter := hrest.source c.src hkept
  rw [hspec.src_eq, hsource] at hafter
  have hcons : consults src (c :: log) = c :: consults src log := by
    simp [consults, hspec.src_eq, hpass]
  rw [hspec.src_eq, hcons, List.map_cons, List.map_cons, hok, hspec.now_eq, hafter]
  rfl

/-- The global bound, from any point of a run that the buckets' first uses led to. -/
theorem ok_within_global {capacity refillPerSec : ℚ} (hcap : 0 ≤ capacity)
    (hrefill : 0 ≤ refillPerSec) {before : List Instant} (hrun : CheckRun rl log rl')
    (hglobal : rl.global = ((TokenBucket.new capacity refillPerSec).takeAll before).2) :
    (log.countP Checked.ok : ℚ) ≤
      capacity + refillPerSec * TokenBucket.growth before (log.map Checked.now) := by
  have hle : log.countP Checked.ok ≤ (log.map Checked.passed).count true := by
    rw [List.count, List.countP_map]
    exact List.countP_mono_left fun c hc hok => by simpa using hrun.ok c hc hok
  rw [hrun.global.1, hglobal] at hle
  exact le_trans (Nat.cast_le.mpr hle) (TokenBucket.takes_within hcap hrefill before _)

/-- The bound of a source, from the creation of its entry. -/
theorem ok_within_source {capacity refillPerSec : ℚ} (hcap : 0 ≤ capacity)
    (hrefill : 0 ≤ refillPerSec) {c : Checked} (hrun : CheckRun rl (c :: log) rl')
    (hpcap : rl.perSourceCapacity = capacity) (hpref : rl.perSourceRefill = refillPerSec)
    (hcreated : c.created = true) (hkept : ∀ d ∈ log, d.src = c.src → d.created = false) :
    ((c :: log).countP (fun d => d.src = c.src && d.ok) : ℚ) ≤ capacity +
      refillPerSec * TokenBucket.growth [] ((consults c.src (c :: log)).map Checked.now) := by
  have hle : (c :: log).countP (fun d => d.src = c.src && d.ok) =
      ((consults c.src (c :: log)).map Checked.ok).count true := by
    rw [List.count, List.countP_map, consults, List.countP_filter]
    refine List.countP_congr fun d hd => ?_
    have hpass := hrun.ok d hd
    simp only [Bool.and_eq_true, decide_eq_true_eq, Function.comp_apply, beq_iff_eq]
    tauto
  rw [hle, hrun.source_created hcreated hkept, hpcap, hpref]
  exact TokenBucket.takes_within hcap hrefill [] _

end CheckRun

/-- **The budgets of the pre-filter**, for every sequence of sources and instants. Over any part of
a run the checks that return true stay within the global bucket and the time its clock advances;
from a creation of a source's entry on, as long as no further one is created, those of that source
stay within its own. A check that the global bucket denies leaves the map and the links alone. -/
theorem checks_within_budget {globalCapacity globalRefill perSourceCapacity perSourceRefill : ℚ}
    (hgcap : 0 ≤ globalCapacity) (hgref : 0 ≤ globalRefill) (hpcap : 0 ≤ perSourceCapacity)
    (hpref : 0 ≤ perSourceRefill) (maxTracked : Nat) (calls : List (IpAddr × Instant)) :
    ∃ log rl, (withParams globalCapacity globalRefill perSourceCapacity perSourceRefill
          maxTracked).checkAll calls = some (log, rl) ∧
      log.map (fun c => (c.src, c.now)) = calls ∧
      (∀ before part after, log = before ++ part ++ after →
        (part.countP Checked.ok : ℚ) ≤ globalCapacity +
          globalRefill * TokenBucket.growth (before.map Checked.now) (part.map Checked.now)) ∧
      (∀ before c mid after, log = before ++ (c :: mid) ++ after → c.created = true →
        (∀ d ∈ mid, d.src = c.src → d.created = false) →
        ((c :: mid).countP (fun d => d.src = c.src && d.ok) : ℚ) ≤ perSourceCapacity +
          perSourceRefill *
            TokenBucket.growth [] ((consults c.src (c :: mid)).map Checked.now)) ∧
      ∀ src now, (rl.global.tryTake now).1 = false →
        ∃ rl', rl.check src now = some (false, rl') ∧ rl'.perSource = rl.perSource ∧
          rl'.lruHead = rl.lruHead ∧ rl'.lruTail = rl.lruTail := by
  have hord := ordered_withParams globalCapacity globalRefill perSourceCapacity perSourceRefill
    maxTracked
  obtain ⟨log, rl, hrun, hcalls⟩ := checkAll_total hord calls
  -- the limiter where a part of the record starts, and the run of that part
  have hpart : ∀ before part after, log = before ++ part ++ after → ∃ mid rl',
      CheckRun mid part rl' ∧
      mid.global =
        ((TokenBucket.new globalCapacity globalRefill).takeAll (before.map Checked.now)).2 ∧
      mid.perSourceCapacity = perSourceCapacity ∧ mid.perSourceRefill = perSourceRefill := by
    rintro before part after rfl
    rw [List.append_assoc] at hrun
    obtain ⟨_, _, mid, -, hbefore, hrest⟩ := checkAll_split hrun
    obtain ⟨_, _, rl', -, hmid, -⟩ := checkAll_split hrest
    obtain ⟨hmidord, hcap, href⟩ := (checkAll_run hord hbefore).kept
    exact ⟨mid, rl', checkAll_run hmidord hmid, (checkAll_run hord hbefore).global.2, hcap, href⟩
  refine ⟨log, rl, hrun, hcalls, fun before part after hlog => ?_,
    fun before c mid after hlog hcreated hkept => ?_, fun src now hdenied => ?_⟩
  · obtain ⟨mid, rl', hmid, hglobal, -⟩ := hpart before part after hlog
    exact hmid.ok_within_global hgcap hgref hglobal
  · obtain ⟨_, rl', hmid, -, hcap, href⟩ := hpart before (c :: mid) after hlog
    exact hmid.ok_within_source hpcap hpref hcap href hcreated hkept
  · exact ⟨rl.askGlobal now, check_denied hdenied, rfl, rfl, rfl⟩

/-- Two sources against a global bucket of two tokens, with the clock going backwards. -/
theorem checks_within_budget_backwards :
    (0 : ℚ) ≤ 2 ∧ (0 : ℚ) ≤ 1 ∧ ∃ log rl,
      (withParams 2 1 1 1 1).checkAll
        [(.v4 1, 2000000000), (.v4 2, 1000000000), (.v4 1, 3000000000)] = some (log, rl) ∧
      (log.countP Checked.ok : ℚ) ≤ 2 + 1 * TokenBucket.growth [] (log.map Checked.now) := by
  have hrun := checks_within_budget (show (0 : ℚ) ≤ 2 by norm_num) (zero_le_one (α := ℚ))
    (zero_le_one (α := ℚ)) (zero_le_one (α := ℚ)) 1
    [(.v4 1, 2000000000), (.v4 2, 1000000000), (.v4 1, 3000000000)]
  obtain ⟨log, rl, hlog, -, hglobal, -⟩ := hrun
  exact ⟨by norm_num, zero_le_one, log, rl, hlog, hglobal [] log [] (by simp)⟩

/-! ## What a denied check costs -/

namespace CheckRun

variable {rl rl' : RateLimiter} {log : List Checked}

/-- Every check that finds a global token pays it. -/
theorem debit_eq (hrun : CheckRun rl log rl') :
    (log.map Checked.debit).sum = (log.countP Checked.passed : ℚ) := by
  induction hrun with
  | nil => rfl
  | cons hspec rest ih =>
    rw [List.map_cons, List.sum_cons, ih, hspec.debit_eq, List.countP_cons]
    push_cast
    exact add_comm _ _

/-- So denials are free exactly when there is none among the checks that find one. -/
theorem debit_eq_ok_iff (hrun : CheckRun rl log rl') :
    (log.map Checked.debit).sum = (log.countP Checked.ok : ℚ) ↔
      ∀ c ∈ log, c.passed = true → c.ok = true := by
  rw [hrun.debit_eq, Nat.cast_inj]
  have hok := hrun.ok
  clear hrun
  induction log with
  | nil => simp
  | cons c log ih =>
    have hle : log.countP Checked.ok ≤ log.countP Checked.passed :=
      List.countP_mono_left fun d hd => hok d (List.mem_cons_of_mem _ hd)
    have hrest := ih fun d hd => hok d (List.mem_cons_of_mem _ hd)
    have hc := hok c List.mem_cons_self
    rw [List.countP_cons, List.countP_cons, List.forall_mem_cons]
    constructor
    · intro heq
      by_cases ho : c.ok = true
      · refine ⟨fun _ => ho, hrest.mp ?_⟩
        rw [if_pos (hc ho), if_pos ho] at heq
        exact Nat.add_right_cancel heq
      · have hp : c.passed ≠ true := by
          intro hp
          rw [if_pos hp, if_neg ho] at heq
          omega
        rw [if_neg hp, if_neg ho] at heq
        exact ⟨fun h => absurd h hp, hrest.mp heq⟩
    · rintro ⟨hpo, hlog⟩
      rw [hrest.mpr hlog, if_congr (Iff.intro hpo hc) rfl rfl]

end CheckRun

/-- Wherever a check of the run is made, if the global bucket has a token for it then so has the
bucket of its source. -/
def SourcesHaveTokens (rl : RateLimiter) (calls : List (IpAddr × Instant)) : Prop :=
  ∀ before src now after, calls = before ++ (src, now) :: after →
    ∀ log rl₁, rl.checkAll before = some (log, rl₁) →
      (rl₁.global.tryTake now).1 = true → ((rl₁.sourceBucket src).tryTake now).1 = true

theorem sourcesHaveTokens_cons {rl rl₁ : RateLimiter} {src : IpAddr} {now : Instant} {c : Checked}
    {calls : List (IpAddr × Instant)} (hcheck : rl.logCheck src now = some (c, rl₁)) :
    rl.SourcesHaveTokens ((src, now) :: calls) ↔
      ((rl.global.tryTake now).1 = true → ((rl.sourceBucket src).tryTake now).1 = true) ∧
        rl₁.SourcesHaveTokens calls := by
  constructor
  · refine fun h => ⟨h [] src now calls rfl [] rl rfl, ?_⟩
    rintro before src' now' after rfl log rl₂ hrun
    refine h ((src, now) :: before) src' now' after rfl (c :: log) rl₂ ?_
    exact checkAll_cons_iff.mpr ⟨c, rl₁, log, hcheck, hrun, rfl⟩
  · rintro ⟨hfirst, hrest⟩ before src' now' after hcalls log rl₂ hrun
    cases before with
    | nil =>
      obtain ⟨⟨rfl, rfl⟩, -⟩ : (src = src' ∧ now = now') ∧ calls = after := by simpa using hcalls
      obtain ⟨-, rfl⟩ : [] = log ∧ rl = rl₂ := by simpa [checkAll] using hrun
      exact hfirst
    | cons call before =>
      obtain ⟨rfl, rfl⟩ : (src, now) = call ∧ calls = before ++ (src', now') :: after := by
        simpa using hcalls
      obtain ⟨c', rl₃, log', hcheck', hbefore, -⟩ := checkAll_cons_iff.mp hrun
      obtain ⟨rfl, rfl⟩ : c = c' ∧ rl₁ = rl₃ := by simpa using hcheck.symm.trans hcheck'
      exact hrest before src' now' after rfl log' rl₂ hbefore

/-- The record and the states before the steps say the same. -/
theorem sourcesHaveTokens_iff {rl rl' : RateLimiter} (h : rl.Ordered)
    {calls : List (IpAddr × Instant)} {log : List Checked}
    (hrun : rl.checkAll calls = some (log, rl')) :
    rl.SourcesHaveTokens calls ↔ ∀ c ∈ log, c.passed = true → c.ok = true := by
  induction calls generalizing rl log with
  | nil =>
    obtain ⟨rfl, -⟩ : [] = log ∧ rl = rl' := by simpa [checkAll] using hrun
    simp [SourcesHaveTokens]
  | cons call calls ih =>
    obtain ⟨src, now⟩ := call
    obtain ⟨c, rl₁, rest, hcheck, hrest, rfl⟩ := checkAll_cons_iff.mp hrun
    obtain ⟨c', rl₁', hcheck', hspec⟩ := logCheck_spec h src now
    obtain ⟨rfl, rfl⟩ : c = c' ∧ rl₁ = rl₁' := by simpa using hcheck.symm.trans hcheck'
    rw [sourcesHaveTokens_cons hcheck, ih hspec.ordered hrest, List.forall_mem_cons, hspec.ok_eq,
      hspec.passed_eq]
    cases (rl.global.tryTake now).1 <;> simp

/-- The global bucket after a burst at one instant. -/
theorem takeAll_replicate {capacity refillPerSec : ℚ} (hcap : 0 ≤ capacity) (n : Nat)
    (now : Instant) :
    ((TokenBucket.new capacity refillPerSec).takeAll (List.replicate n now)).2 =
      ⟨capacity, refillPerSec, capacity - (min n ⌊capacity⌋₊ : Nat),
        if n = 0 then none else some now⟩ := by
  induction n with
  | zero => simp [TokenBucket.takeAll, TokenBucket.new]
  | succ n ih =>
    rw [List.replicate_succ', TokenBucket.takeAll_append, ih]
    have hrefill : TokenBucket.refill ⟨capacity, refillPerSec,
        capacity - (min n ⌊capacity⌋₊ : Nat), if n = 0 then none else some now⟩ now =
        ⟨capacity, refillPerSec, capacity - (min n ⌊capacity⌋₊ : Nat), some now⟩ := by
      unfold TokenBucket.refill
      by_cases hn : n = 0 <;> simp [hn, elapsedSecs]
    simp only [TokenBucket.takeAll, TokenBucket.tryTake, hrefill]
    have hiff : (1 : ℚ) ≤ capacity - (min n ⌊capacity⌋₊ : Nat) ↔ n + 1 ≤ ⌊capacity⌋₊ := by
      rw [le_sub_iff_add_le, add_comm, ← Nat.cast_succ, ← Nat.le_floor_iff hcap]
      omega
    by_cases hn : n + 1 ≤ ⌊capacity⌋₊
    · rw [if_pos (hiff.mpr hn), Nat.min_eq_left (by omega), Nat.min_eq_left hn]
      simp [sub_sub]
    · rw [if_neg fun h => hn (hiff.mp h), Nat.min_eq_right (by omega), Nat.min_eq_right (by omega)]
      simp

/-- A check of a source that no check named before consults a new bucket. -/
theorem CheckRun.untouched {rl rl' : RateLimiter} {log : List Checked} (hrun : CheckRun rl log rl')
    {src : IpAddr} (hlog : ∀ c ∈ log, c.src ≠ src) (h : rl.bucketOf src = none) :
    rl'.bucketOf src = none := by
  induction hrun with
  | nil => exact h
  | cons hspec rest ih =>
    rw [List.forall_mem_cons, hspec.src_eq] at hlog
    refine ih hlog.2 ?_
    rcases hspec.others src hlog.1.symm with heq | hnone
    · rw [heq]
      exact h
    · exact hnone

/-- What a bucket that was last used at `last` lets through. -/
theorem tryTake_iff {b : TokenBucket} {last : Instant} (hlast : b.lastUpdate = some last)
    (hcap : 1 ≤ b.capacity) (now : Instant) :
    (b.tryTake now).1 = true ↔ 1 ≤ b.tokens + b.refillPerSec * elapsedSecs now last := by
  have hiff : 1 ≤ (b.refill now).tokens ↔ 1 ≤ b.tokens + b.refillPerSec * elapsedSecs now last := by
    rcases Nat.lt_or_ge last now with hlt | hge
    · rw [TokenBucket.refill_of_lt hlast hlt, le_min_iff, mul_comm]
      exact and_iff_left hcap
    · have hzero : elapsedSecs now last = 0 := by
        simp [elapsedSecs, Nat.sub_eq_zero_of_le hge]
      rw [TokenBucket.refill_of_le hlast hge, hzero, mul_zero, add_zero]
  rw [← hiff]
  unfold TokenBucket.tryTake
  dsimp only
  split <;> simp_all

/-- What a bucket that was never used lets through. -/
theorem tryTake_new {capacity refillPerSec : ℚ} (hcap : 1 ≤ capacity) (now : Instant) :
    ((TokenBucket.new capacity refillPerSec).tryTake now).1 = true := by
  simp [TokenBucket.new, TokenBucket.tryTake, TokenBucket.refill, hcap]

/-- **After a burst of one source**, a new source is let through as far as the burst has left a
global token, or time has refilled one: every check of the burst takes one, denied or not. -/
theorem check_after_burst {globalCapacity globalRefill perSourceCapacity perSourceRefill : ℚ}
    (hpcap : 1 ≤ perSourceCapacity) (hgcap : 1 ≤ globalCapacity) (maxTracked n : Nat)
    {src other : IpAddr} (hne : other ≠ src) (now later : Instant) :
    ∃ log rl ok rl', (withParams globalCapacity globalRefill perSourceCapacity perSourceRefill
          maxTracked).checkAll (List.replicate n (src, now)) = some (log, rl) ∧
      rl.check other later = some (ok, rl') ∧
      (ok = true ↔ n = 0 ∨ ((min n ⌊globalCapacity⌋₊ : Nat) : ℚ) + 1 ≤
        globalCapacity + globalRefill * elapsedSecs later now) := by
  have hord := ordered_withParams globalCapacity globalRefill perSourceCapacity perSourceRefill
    maxTracked
  obtain ⟨log, rl, hrun, hcalls⟩ := checkAll_total hord (List.replicate n (src, now))
  have hchecks := checkAll_run hord hrun
  have hnows : log.map Checked.now = List.replicate n now := by
    rw [← List.map_replicate (f := Prod.snd) (a := (src, now)), ← hcalls, List.map_map]
    rfl
  have hsrcs : ∀ c ∈ log, c.src ≠ other := by
    intro c hc
    have hmem := List.mem_map_of_mem (f := fun c => (c.src, c.now)) hc
    rw [hcalls] at hmem
    rw [(Prod.mk.inj (List.eq_of_mem_replicate hmem)).1]
    exact hne.symm
  obtain ⟨hord', hcap, href⟩ := hchecks.kept
  have hnew : rl.sourceBucket other = TokenBucket.new perSourceCapacity perSourceRefill := by
    unfold sourceBucket
    rw [hchecks.untouched hsrcs (by simp [bucketOf, withParams]), hcap, href]
    rfl
  have hglobal := hchecks.global.2
  rw [hnows] at hglobal
  change rl.global = ((TokenBucket.new globalCapacity globalRefill).takeAll _).2 at hglobal
  rw [takeAll_replicate (le_trans zero_le_one hgcap)] at hglobal
  obtain ⟨c, rl', hcheck, hspec⟩ := logCheck_spec hord' other later
  obtain ⟨⟨ok, rl₁⟩, hcheck', heq⟩ := Option.map_eq_some_iff.mp hcheck
  refine ⟨log, rl, ok, rl₁, hrun, hcheck', ?_⟩
  obtain ⟨rfl, rfl⟩ : _ = c ∧ rl₁ = rl' := by simpa using heq
  have hok := hspec.ok_eq
  rw [hspec.passed_eq, hnew, tryTake_new hpcap, Bool.and_true] at hok
  dsimp only at hok
  rw [hok, hglobal]
  by_cases hn : n = 0
  · simp only [hn, true_or, iff_true, if_true, Nat.zero_min, Nat.cast_zero, sub_zero]
    exact tryTake_new hgcap later
  · rw [if_neg hn, tryTake_iff rfl hgcap]
    dsimp only
    rw [or_iff_right hn]
    constructor <;> intro h <;> linarith

/-- **When a denied check costs nothing**: exactly in the runs where no check finds a token in the
global bucket and none in its source's, because the global bucket pays first and is not paid back. -/
theorem debits_iff_sources_have_tokens
    (globalCapacity globalRefill perSourceCapacity perSourceRefill : ℚ) (maxTracked : Nat) :
    (∀ calls, ∃ log rl, (withParams globalCapacity globalRefill perSourceCapacity perSourceRefill
          maxTracked).checkAll calls = some (log, rl) ∧
      ((log.map Checked.debit).sum = (log.countP Checked.ok : ℚ) ↔
        (withParams globalCapacity globalRefill perSourceCapacity perSourceRefill
          maxTracked).SourcesHaveTokens calls)) ∧
    ∀ n src other now later, other ≠ src → 1 ≤ perSourceCapacity →
      perSourceCapacity + 1 ≤ globalCapacity →
      ∃ log rl ok rl', (withParams globalCapacity globalRefill perSourceCapacity perSourceRefill
            maxTracked).checkAll (List.replicate n (src, now)) = some (log, rl) ∧
        rl.check other later = some (ok, rl') ∧
        (ok = true ↔ n = 0 ∨ ((min n ⌊globalCapacity⌋₊ : Nat) : ℚ) + 1 ≤
          globalCapacity + globalRefill * elapsedSecs later now) := by
  have hord := ordered_withParams globalCapacity globalRefill perSourceCapacity perSourceRefill
    maxTracked
  refine ⟨fun calls => ?_, fun n src other now later hne hpcap hgcap => ?_⟩
  · obtain ⟨log, rl, hrun, -⟩ := checkAll_total hord calls
    refine ⟨log, rl, hrun, ?_⟩
    rw [(checkAll_run hord hrun).debit_eq_ok_iff, sourcesHaveTokens_iff hord hrun]
  · exact check_after_burst hpcap (by linarith) maxTracked n hne now later

/-- Three checks of one source empty a global bucket of three tokens, of which one was allowed; a
source that was never seen is then denied. -/
theorem noisy_source_starves_another :
    ((withParams 3 0 1 0 16).checkAll (List.replicate 3 (.v4 1, 0))).map (fun r =>
      ((r.1.map Checked.debit).sum, r.1.countP Checked.ok, (r.2.check (.v4 2) 0).map Prod.fst)) =
      some (3, 1, some false) := by
  decide +kernel

end RateLimiter

end QuietQuic.Proto
